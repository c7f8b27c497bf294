import PhpTypes.Doc.Block
import PhpTypes.Proofs.TypeSpacing

/-!
# Where a type ends in a tag

The type of a tag ends at the first white space outside of brackets that has no operator next to it.
What stands after that white space decides nothing else, so the type is found again when other text
follows it, as long as that text starts with no operator.
-/

namespace PhpTypes.Doc

/-! White space at the ends of a text. -/

theorem head?_trimStart_append (cs rest : List Char) :
    (Text.trimStart (cs ++ rest)).head? =
      (Text.trimStart cs).head?.or (Text.trimStart rest).head? := by
  induction cs with
  | nil => rfl
  | cons c cs ih =>
    cases hc : Text.isBlank c with
    | true =>
      rw [Text.trimStart, Text.trimStart, List.cons_append, List.dropWhile_cons_of_pos hc,
        List.dropWhile_cons_of_pos hc]
      exact ih
    | false => simp [Text.trimStart, hc]

theorem getLast?_trimEnd (cs : List Char) :
    (Text.trimEnd cs).getLast? = (Text.trimStart cs.reverse).head? := by
  rw [Text.trimEnd, List.getLast?_reverse]
  rfl

theorem getLast?_trimEnd_append (cs rest : List Char) :
    (Text.trimEnd (cs ++ rest)).getLast? =
      (Text.trimEnd rest).getLast?.or (Text.trimEnd cs).getLast? := by
  rw [getLast?_trimEnd, getLast?_trimEnd, getLast?_trimEnd, List.reverse_append,
    head?_trimStart_append]

theorem not_blank_of_head_trimStart (cs : List Char) :
    ∀ c ∈ (Text.trimStart cs).head?, Text.isBlank c = false := by
  intro c hc
  have hstop := List.head?_dropWhile_not Text.isBlank cs
  rw [Text.trimStart, Option.mem_def] at hc
  rwa [hc] at hstop

theorem not_blank_of_last_trimEnd (cs : List Char) :
    ∀ c ∈ (Text.trimEnd cs).getLast?, Text.isBlank c = false := by
  rw [getLast?_trimEnd]
  exact not_blank_of_head_trimStart cs.reverse

theorem mem_head_of_trimEnd {cs : List Char} {c : Char} (h : c ∈ (Text.trimEnd cs).head?) :
    c ∈ cs.head? := by
  obtain ⟨tail, htail⟩ := trimEnd_prefix cs
  rw [← htail, List.head?_append]
  exact Option.or_eq_some_iff.mpr (.inl h)

/-- No white space stands at either end. -/
structure Trimmed (cs : List Char) : Prop where
  first : ∀ c ∈ cs.head?, Text.isBlank c = false
  last : ∀ c ∈ cs.getLast?, Text.isBlank c = false

theorem trimmed_trim (cs : List Char) : Trimmed (Text.trim cs) := by
  constructor
  · exact fun c hc => not_blank_of_head_trimStart cs c (mem_head_of_trimEnd hc)
  · exact not_blank_of_last_trimEnd _

theorem Trimmed.trim_eq {cs : List Char} (h : Trimmed cs) : Text.trim cs = cs := by
  rw [Text.trim, trimStart_of_head h.first, trimEnd_of_last h.last]

/-! Brackets. -/

/-- How much deeper a character leads into brackets. -/
def bracketStep (c : Char) : Int := if opens c then 1 else if closes c then -1 else 0

/-- How deep a list leads in all. -/
def nesting {α : Type} (step : α → Int) : List α → Int
  | [] => 0
  | a :: as => step a + nesting step as

@[simp]
theorem nesting_append {α : Type} (step : α → Int) (as bs : List α) :
    nesting step (as ++ bs) = nesting step as + nesting step bs := by
  induction as with
  | nil => simp [nesting]
  | cons a as ih =>
    rw [List.cons_append, nesting, nesting, ih]
    omega

private theorem not_bracket_of_blankCodes :
    ∀ n ∈ blankCodes, opens (Char.ofNat n) = false ∧ closes (Char.ofNat n) = false := by
  decide

private theorem not_bracket_of_blank {c : Char} (h : Text.isBlank c = true) :
    opens c = false ∧ closes c = false := by
  have hbrackets := not_bracket_of_blankCodes c.toNat (mem_blankCodes h)
  rwa [Char.ofNat_toNat] at hbrackets

theorem bracketStep_of_blank {c : Char} (h : Text.isBlank c = true) : bracketStep c = 0 := by
  obtain ⟨hopens, hcloses⟩ := not_bracket_of_blank h
  simp [bracketStep, hopens, hcloses]

/-! The end of a type. -/

/-- A type ends at the character `c`. What was taken already is in `before`, last first, and `cs`
comes after the character. -/
structure EndsAt (before : List Char) (depth : Int) (c : Char) (cs : List Char) : Prop where
  blank : Text.isBlank c = true
  outside : depth ≤ 0
  next : joins (Text.trimStart cs).head? = false
  last : joins (Text.trimStart before).head? = false

private theorem splitTypeFrom_endsAt {before cs : List Char} {depth : Int} {c : Char}
    (h : EndsAt before depth c cs) :
    splitTypeFrom before depth (c :: cs) = (before.reverse, Text.trimStart cs) := by
  obtain ⟨hopens, hcloses⟩ := not_bracket_of_blank h.blank
  simp [splitTypeFrom, hopens, hcloses, h.blank, h.outside, trimStart_blank h.blank, h.next, h.last]

private theorem splitTypeFrom_goesOn {before cs : List Char} {depth : Int} {c : Char}
    (h : ¬ EndsAt before depth c cs) :
    splitTypeFrom before depth (c :: cs) =
      splitTypeFrom (c :: before) (depth + bracketStep c) cs := by
  rw [splitTypeFrom, bracketStep]
  by_cases hopens : opens c = true
  · rw [if_pos hopens, if_pos hopens]
  · rw [if_neg hopens, if_neg hopens]
    by_cases hcloses : closes c = true
    · rw [if_pos hcloses, if_pos hcloses]
      rfl
    · rw [if_neg hcloses, if_neg hcloses, Int.add_zero]
      by_cases houtside : (Text.isBlank c && decide (depth ≤ 0)) = true
      · rw [if_pos houtside]
        rw [Bool.and_eq_true, decide_eq_true_eq] at houtside
        obtain ⟨hblank, hdepth⟩ := houtside
        apply if_pos
        rw [trimStart_blank hblank]
        by_contra hjoins
        rw [Bool.not_eq_true, Bool.or_eq_false_iff] at hjoins
        exact h ⟨hblank, hdepth, hjoins.1, hjoins.2⟩
      · rw [if_neg houtside]

/-- The type does not end at any character of `cs`, when `rest` follows. -/
def Passes (before : List Char) (depth : Int) (cs rest : List Char) : Prop :=
  ∀ u c v, cs = u ++ c :: v →
    ¬ EndsAt (u.reverse ++ before) (depth + nesting bracketStep u) c (v ++ rest)

private theorem passes_nil (before : List Char) (depth : Int) (rest : List Char) :
    Passes before depth [] rest := by
  simp [Passes]

theorem passes_cons {before cs rest : List Char} {depth : Int} {c : Char} :
    Passes before depth (c :: cs) rest ↔
      ¬ EndsAt before depth c (cs ++ rest) ∧
        Passes (c :: before) (depth + bracketStep c) cs rest := by
  have hstep (u : List Char) :
      (c :: u).reverse ++ before = u.reverse ++ c :: before ∧
        depth + nesting bracketStep (c :: u) = depth + bracketStep c + nesting bracketStep u := by
    simp [nesting, Int.add_assoc]
  constructor
  · intro h
    constructor
    · simpa [nesting] using h [] c cs rfl
    · intro u d v hcs
      rw [← (hstep u).1, ← (hstep u).2]
      exact h (c :: u) d v (by rw [hcs, List.cons_append])
  · intro ⟨hhead, htail⟩ u d v hcs
    cases u with
    | nil =>
      obtain ⟨rfl, rfl⟩ := List.cons.inj hcs
      simpa [nesting] using hhead
    | cons e u =>
      obtain ⟨rfl, htaken⟩ := List.cons.inj hcs
      rw [(hstep u).1, (hstep u).2]
      exact htail u d v htaken

theorem Passes.append {before cs ds rest : List Char} {depth : Int}
    (hcs : Passes before depth cs (ds ++ rest))
    (hds : Passes (cs.reverse ++ before) (depth + nesting bracketStep cs) ds rest) :
    Passes before depth (cs ++ ds) rest := by
  induction cs generalizing before depth with
  | nil => simpa [nesting] using hds
  | cons c cs ih =>
    obtain ⟨hhead, htail⟩ := passes_cons.mp hcs
    rw [List.reverse_cons, List.append_assoc, List.singleton_append, nesting, ← Int.add_assoc]
      at hds
    rw [List.cons_append, passes_cons, List.append_assoc]
    exact ⟨hhead, ih htail hds⟩

theorem passes_of_not_blank (before : List Char) (depth : Int) {cs : List Char}
    (h : ∀ c ∈ cs, Text.isBlank c = false) (rest : List Char) : Passes before depth cs rest := by
  intro u c v hcs hends
  have hblank := h c (by simp [hcs])
  rw [hends.blank] at hblank
  cases hblank

private theorem splitTypeFrom_passes {before cs rest : List Char} {depth : Int}
    (h : Passes before depth cs rest) :
    splitTypeFrom before depth (cs ++ rest) =
      splitTypeFrom (cs.reverse ++ before) (depth + nesting bracketStep cs) rest := by
  induction cs generalizing before depth with
  | nil => simp [nesting]
  | cons c cs ih =>
    obtain ⟨hhead, htail⟩ := passes_cons.mp h
    rw [List.cons_append, splitTypeFrom_goesOn hhead, ih htail, nesting, Int.add_assoc,
      List.reverse_cons, List.append_assoc, List.singleton_append]

/-- Only an operator that comes next lets the text after a type decide where the type ends. -/
theorem Passes.change {before cs rest : List Char} {depth : Int} (h : Passes before depth cs rest)
    (hrest : joins (Text.trimStart rest).head? = false) (rest' : List Char) :
    Passes before depth cs rest' := by
  intro u c v hcs hends
  apply h u c v hcs
  have hnext : joins (Text.trimStart (v ++ rest)).head? = false := by
    have hnext' := hends.next
    rw [head?_trimStart_append] at hnext' ⊢
    cases hv : (Text.trimStart v).head? with
    | none => exact hrest
    | some d => rwa [hv] at hnext'
  exact { hends with next := hnext }

/-- A text that is split: `taken` is the type and `rest` comes after it. -/
structure Splits (taken rest : List Char) : Prop where
  passes : Passes [] 0 taken rest
  ends : ∀ c cs, rest = c :: cs → EndsAt taken.reverse (nesting bracketStep taken) c cs

theorem Splits.splitType_eq {taken rest : List Char} (h : Splits taken rest) :
    splitType (taken ++ rest) = (taken, Text.trimStart rest) := by
  rw [splitType, splitTypeFrom_passes h.passes, List.append_nil, Int.zero_add]
  cases rest with
  | nil => simp [splitTypeFrom, Text.trimStart]
  | cons c cs =>
    have hends := h.ends c cs rfl
    rw [splitTypeFrom_endsAt hends, trimStart_blank hends.blank, List.reverse_reverse]

private theorem exists_passes (before : List Char) (depth : Int) (cs : List Char) :
    ∃ taken rest, cs = taken ++ rest ∧ Passes before depth taken rest ∧
      ∀ d ds, rest = d :: ds →
        EndsAt (taken.reverse ++ before) (depth + nesting bracketStep taken) d ds := by
  induction cs generalizing before depth with
  | nil => exact ⟨[], [], rfl, passes_nil _ _ _, by simp⟩
  | cons c cs ih =>
    by_cases hends : EndsAt before depth c cs
    · apply Exists.intro []
      apply Exists.intro (c :: cs)
      apply And.intro rfl
      apply And.intro (passes_nil _ _ _)
      intro d ds hrest
      obtain ⟨rfl, rfl⟩ := List.cons.inj hrest
      simpa [nesting] using hends
    · obtain ⟨taken, rest, rfl, hpasses, hrest⟩ := ih (c :: before) (depth + bracketStep c)
      apply Exists.intro (c :: taken)
      apply Exists.intro rest
      rw [List.reverse_cons, List.append_assoc, List.singleton_append, nesting, ← Int.add_assoc]
      exact ⟨rfl, passes_cons.mpr ⟨hends, hpasses⟩, hrest⟩

theorem exists_splits (cs : List Char) : ∃ taken rest, cs = taken ++ rest ∧ Splits taken rest := by
  obtain ⟨taken, rest, hcs, hpasses, hends⟩ := exists_passes [] 0 cs
  rw [List.append_nil, Int.zero_add] at hends
  exact ⟨taken, rest, hcs, hpasses, hends⟩

theorem Splits.not_joins {taken rest : List Char} (h : Splits taken rest) :
    joins (Text.trimStart rest).head? = false := by
  cases rest with
  | nil => rfl
  | cons c cs =>
    have hends := h.ends c cs rfl
    rw [trimStart_blank hends.blank]
    exact hends.next

/-- A text after one space, or nothing where there is no text. -/
def spaced (cs : List Char) : List Char := if cs.isEmpty then [] else ' ' :: cs

theorem trimStart_spaced (cs : List Char) : Text.trimStart (spaced cs) = Text.trimStart cs := by
  cases cs with
  | nil => rfl
  | cons c cs => exact trimStart_blank (by decide) _

/-- Any other text can follow the type, if it starts with no operator. -/
theorem Splits.spaced {taken rest rest' : List Char} (h : Splits taken rest)
    (hrest : rest = [] → rest' = []) (hjoins : joins (Text.trimStart rest').head? = false) :
    Splits taken (spaced rest') := by
  constructor
  · exact h.passes.change h.not_joins _
  · intro d ds hspaced
    cases rest' with
    | nil => cases hspaced
    | cons e rest' =>
      cases rest with
      | nil => cases hrest rfl
      | cons c cs =>
        have hends := h.ends c cs rfl
        obtain ⟨rfl, rfl⟩ := List.cons.inj hspaced
        exact ⟨by decide, hends.outside, hjoins, hends.last⟩

theorem Splits.taken_ne_nil {taken rest : List Char} (h : Splits taken rest)
    (hwhole : Trimmed (taken ++ rest)) (hrest : rest ≠ []) : taken ≠ [] := by
  intro htaken
  subst htaken
  obtain ⟨c, cs, rfl⟩ := List.exists_cons_of_ne_nil hrest
  have hblank := (h.ends c cs rfl).blank
  rw [hwhole.first c rfl] at hblank
  cases hblank

/-- A type ends at the first character of the white space after it. -/
theorem Splits.trimmed {taken rest : List Char} (h : Splits taken rest)
    (hwhole : Trimmed (taken ++ rest)) : Trimmed taken := by
  constructor
  · intro c hc
    apply hwhole.first
    rw [List.head?_append]
    exact Option.or_eq_some_iff.mpr (.inl hc)
  · intro c hc
    cases rest with
    | nil => exact hwhole.last c (by rwa [List.append_nil])
    | cons d ds =>
      obtain ⟨u, rfl⟩ := List.getLast?_eq_some_iff.mp hc
      by_contra hblank
      rw [Bool.not_eq_false] at hblank
      have hends := h.ends d ds rfl
      have houtside := hends.outside
      have hlast := hends.last
      rw [List.reverse_append, List.reverse_singleton, List.singleton_append,
        trimStart_blank hblank] at hlast
      rw [nesting_append, nesting, bracketStep_of_blank hblank] at houtside
      -- The type would have ended one character earlier.
      apply h.passes u c [] rfl
      rw [List.append_nil, List.nil_append]
      exact ⟨hblank, by simpa [nesting] using houtside, h.not_joins, hlast⟩

end PhpTypes.Doc
