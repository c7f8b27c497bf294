import PhpTypes.Inference.Lookup

/-!
# Keys of declarations

An index holds every class and every function under the key of its name, which ignores case and the
separators in front. Two names that are equal in lower case have the same key, so classes of the
same lower-case name are the same class.
-/

namespace PhpTypes

namespace Text

private theorem lowerChar_separator : lowerChar '\\' = '\\' := by decide

private theorem separator_not_skipped : isCaseIgnorable '\\' = false := by decide +kernel

private theorem separator_not_cased : isCased '\\' = false := by decide +kernel

private theorem shift_above : ∀ s ∈ caseShifts, 92 < (s.first : Int) + s.shift := by
  decide +kernel

private theorem ascii_lower : ∀ n < 128, Char.ofNat n ≠ '\\' → (Char.ofNat n).toLower ≠ '\\' := by
  decide

private theorem ofNat_ne_separator {n : Nat} (h : 92 < n) : Char.ofNat n ≠ '\\' := by
  intro heq
  by_cases hvalid : n.isValidChar
  · have hval := congrArg (fun c : Char => c.val.toNat) ((dif_pos hvalid).symm.trans heq)
    change n = 92 at hval
    omega
  · cases (dif_neg hvalid).symm.trans heq

/-- Only the separator has the separator as its lower form. -/
theorem lowerChar_ne_separator {c : Char} (h : c ≠ '\\') : lowerChar c ≠ '\\' := by
  unfold lowerChar
  split
  · rename_i hlt
    have hc := ascii_lower c.toNat hlt
    rw [Char.ofNat_toNat] at hc
    exact hc h
  · split
    · rename_i s hs
      have habove := shift_above s (List.mem_of_find?_eq_some hs)
      have hcovers : s.covers c.toNat = true :=
        List.find?_some (p := fun s : CaseShift => s.covers c.toNat) hs
      have hfirst : s.first ≤ c.toNat := by
        simp only [CaseShift.covers, Bool.and_eq_true, decide_eq_true_eq] at hcovers
        exact hcovers.1.1
      exact ofNat_ne_separator (by omega)
    · exact h

private theorem meetsCased_append {after : List Char} (h : ∀ c ∈ after, c = '\\')
    (cs : List Char) : meetsCased (cs ++ after) = meetsCased cs := by
  induction cs with
  | nil =>
    cases after with
    | nil => rfl
    | cons c rest =>
      obtain rfl := h c List.mem_cons_self
      simp [meetsCased, separator_not_skipped, separator_not_cased]
  | cons c cs ih =>
    by_cases hc : isCaseIgnorable c
    · simpa only [meetsCased, List.cons_append, List.dropWhile_cons, hc, if_true] using ih
    · simp [meetsCased, hc]

/-- Separators in front do not change the lower form of what follows. -/
private theorem lowerFrom_append {after : List Char} (h : ∀ c ∈ after, c = '\\')
    (before cs : List Char) :
    lowerFrom (before ++ after) cs = lowerFrom before cs := by
  induction cs generalizing before with
  | nil => rfl
  | cons c cs ih =>
    have hrest := ih (c :: before)
    rw [List.cons_append] at hrest
    simp only [lowerFrom, meetsCased_append h, hrest]

private theorem lowerFrom_separator (before cs : List Char) :
    lowerFrom before ('\\' :: cs) = '\\' :: lowerFrom ('\\' :: before) cs := by
  simp [lowerFrom, lowerChar_separator]

/-- The lower form of a character that is no separator does not start with one. -/
private theorem lowerFrom_head (before : List Char) {c : Char} (hc : c ≠ '\\') (cs : List Char) :
    ∃ d ds, lowerFrom before (c :: cs) = d :: ds ∧ d ≠ '\\' := by
  rw [lowerFrom]
  split
  · refine ⟨_, _, rfl, ?_⟩
    split <;> decide
  · split
    · exact ⟨_, _, rfl, by decide⟩
    · exact ⟨_, _, rfl, lowerChar_ne_separator hc⟩

private theorem lowerFrom_dropWhile (before : List Char) (h : ∀ c ∈ before, c = '\\')
    (cs : List Char) :
    (lowerFrom before cs).dropWhile (· == '\\') = lowerChars (cs.dropWhile (· == '\\')) := by
  induction cs generalizing before with
  | nil => rfl
  | cons c cs ih =>
    by_cases hc : c = '\\'
    · subst hc
      rw [lowerFrom_separator]
      simpa using ih ('\\' :: before) (List.forall_mem_cons.mpr ⟨rfl, h⟩)
    · obtain ⟨d, ds, heq, hd⟩ := lowerFrom_head before hc cs
      have hback : lowerFrom before (c :: cs) = lowerChars (c :: cs) :=
        lowerFrom_append h [] (c :: cs)
      rw [heq, List.dropWhile_cons_of_neg (by simpa using hd), ← heq, hback,
        List.dropWhile_cons_of_neg (by simpa using hc)]

private theorem lower_plainName (s : String) :
    lower (Source.plainName s) = Source.plainName (lower s) := by
  have h := lowerFrom_dropWhile [] (by simp) s.toList
  simp only [lower, Source.plainName, String.toList_ofList]
  exact congrArg String.ofList h.symm

end Text

private theorem Source.nameKey_eq_of_lower {a b : String} (h : Text.lower a = Text.lower b) :
    Source.nameKey a = Source.nameKey b := by
  rw [Source.nameKey, Source.nameKey, Text.lower_plainName, Text.lower_plainName, h]

namespace Index

open Source Inference

/-- The index of some files. -/
def ofFiles (files : List File) : Index := files.foldl add empty

private theorem mem_of_only? {α : Type} {as : List α} {a : α} (h : only? as = some a) :
    a ∈ as := by
  match as with
  | [] => cases h
  | [b] => simpa [only?, eq_comm] using h
  | _ :: _ :: _ => cases h

theorem resolve_mem {i : Index} {name : String} {c : ClassLike}
    (h : i.resolve name = some c) : c ∈ i.classes.values := by
  unfold Index.resolve at h
  simp only at h
  repeat' split at h
  · cases h
  · rename_i hget
    cases h
    exact Dict.mem_values_of_get? hget
  · exact (i.inStep.mem_listedAs.mp (mem_of_only? h)).1

theorem resolveFunction_mem {i : Index} {name : String} {f : Function}
    (h : i.resolveFunction name = some f) : f ∈ i.functions.values := by
  unfold Index.resolveFunction at h
  simp only at h
  repeat' split at h
  · rename_i hget
    cases h
    exact Dict.mem_values_of_get? hget
  · rename_i hget
    cases h
    exact Dict.mem_values_of_get? hget
  · exact (List.mem_filter.mp (mem_of_only? h)).1

/-- Functions stand under the keys of their names, as classes do. -/
def Keyed (i : Index) : Prop := i.functions.KeyedBy fun f => nameKey f.fullName

theorem Keyed.addTop {i : Index} (h : i.Keyed) (t : Top) : (i.addTop t).Keyed := by
  cases t with
  | functionDecl decl => exact h.set decl
  | _ => exact h

theorem Keyed.add {i : Index} (h : i.Keyed) (f : File) : (i.add f).Keyed := by
  unfold Index.add
  induction f.tops generalizing i with
  | nil => exact h
  | cons t ts ih => exact ih (h.addTop t)

theorem keyed_ofFiles (files : List File) : (ofFiles files).Keyed := by
  have hall : ∀ (fs : List File) (i : Index), i.Keyed → (fs.foldl Index.add i).Keyed := by
    intro fs
    induction fs with
    | nil => exact fun _ h => h
    | cons f fs ih => exact fun i h => ih _ (h.add f)
  exact hall files empty (Dict.keyedBy_empty _)

variable {i : Index}

theorem get?_fullKey {c : ClassLike} (hc : c ∈ i.classes.values) :
    i.classes.get? c.fullKey = some c :=
  i.inStep.keyed.get? hc

theorem class_eq {c d : ClassLike} (hc : c ∈ i.classes.values) (hd : d ∈ i.classes.values)
    (heq : classKey c = classKey d) : c = d :=
  i.inStep.keyed.eq_of_key hc hd (nameKey_eq_of_lower heq)

theorem Keyed.function_eq (h : i.Keyed) {f g : Function} (hf : f ∈ i.functions.values)
    (hg : g ∈ i.functions.values) (heq : Text.lower f.fullName = Text.lower g.fullName) :
    f = g :=
  h.eq_of_key hf hg (nameKey_eq_of_lower heq)

/-- A class whose full name names a class, is that class. -/
theorem resolve_fullName {c d : ClassLike} (hc : c ∈ i.classes.values)
    (hd : i.resolve c.fullName = some d) : d = c := by
  unfold Index.resolve at hd
  split at hd
  · cases hd
  · have hget : i.classes.get? (nameKey c.fullName) = some c := get?_fullKey hc
    simp only [hget] at hd
    cases hd
    rfl

end Index

end PhpTypes
