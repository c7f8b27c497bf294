import PhpTypes.Proofs.Joins

/-!
# Laws of unions

A union has the first occurrences of the members of its candidates. So a candidate that is itself a
union counts for as much as its own candidates. The order of the candidates decides the order of the
members, which equality does not look at.
-/

namespace PhpTypes.Ty

/-! First occurrences. -/

/-- The types of a list that equal none of those before them. -/
def firstOccurrences (ts : List Ty) : List Ty :=
  (ts.zipIdx.filter fun e => !(ts.take e.2).any fun u => same u e.1).map Prod.fst

private theorem firstOccurrences_snoc (ts : List Ty) (t : Ty) :
    firstOccurrences (ts ++ [t]) =
      firstOccurrences ts ++ if ts.any fun u => same u t then [] else [t] := by
  have hbefore : (ts.zipIdx.filter fun e => !((ts ++ [t]).take e.2).any fun u => same u e.1) =
      ts.zipIdx.filter fun e => !(ts.take e.2).any fun u => same u e.1 := by
    apply List.filter_congr
    intro e he
    have hlt : e.2 < ts.length := by simpa using List.snd_lt_of_mem_zipIdx he
    rw [List.take_append_of_le_length (by omega)]
  have hlast : (([t].zipIdx ts.length).filter fun e =>
      !((ts ++ [t]).take e.2).any fun u => same u e.1).map Prod.fst =
      if ts.any fun u => same u t then [] else [t] := by
    by_cases hany : (ts.any fun u => same u t) = true
    · simp [hany]
    · simp [hany]
  rw [firstOccurrences, List.zipIdx_append, List.filter_append, List.map_append, Nat.zero_add,
    hbefore, hlast, firstOccurrences]

private theorem distinctFrom_snoc (kept ts : List Ty) (t : Ty) :
    distinctFrom kept (ts ++ [t]) =
      distinctFrom kept ts ++ if (kept ++ ts).any fun u => same u t then [] else [t] := by
  induction ts generalizing kept with
  | nil =>
    by_cases hany : (kept.any fun u => same u t) = true
    · simp [distinctFrom, hany]
    · simp [distinctFrom, hany]
  | cons a ts ih =>
    rw [List.cons_append, distinctFrom, distinctFrom]
    by_cases hknown : (kept.any fun u => same u a) = true
    · -- What equals this type equals one that was kept, so nothing changes without it.
      have hany :
          ((kept ++ a :: ts).any fun u => same u t) = (kept ++ ts).any fun u => same u t := by
        obtain ⟨k, hk, hka⟩ := List.any_eq_true.mp hknown
        have himp : same a t = true → ∃ k ∈ kept, same k t = true :=
          fun hat => ⟨k, hk, same_trans hka hat⟩
        rw [Bool.eq_iff_iff]
        simp only [List.any_eq_true, List.mem_append, List.mem_cons]
        constructor
        · rintro ⟨u, hu | rfl | hu, hut⟩
          · exact ⟨u, .inl hu, hut⟩
          · obtain ⟨k, hk, hkt⟩ := himp hut
            exact ⟨k, .inl hk, hkt⟩
          · exact ⟨u, .inr hu, hut⟩
        · rintro ⟨u, hu | hu, hut⟩
          · exact ⟨u, .inl hu, hut⟩
          · exact ⟨u, .inr (.inr hu), hut⟩
      rw [if_pos hknown, if_pos hknown, ih, hany]
    · have hany : ((kept ++ a :: ts).any fun u => same u t) =
          (a :: kept ++ ts).any fun u => same u t := by
        simp only [List.any_append, List.any_cons, Bool.or_left_comm, Bool.or_assoc]
      rw [if_neg hknown, if_neg hknown, ih, hany]
      simp only [List.cons_append]

theorem distinct_snoc (ts : List Ty) (t : Ty) :
    distinct (ts ++ [t]) = distinct ts ++ if ts.any fun u => same u t then [] else [t] :=
  distinctFrom_snoc [] ts t

theorem distinct_eq_firstOccurrences (ts : List Ty) : distinct ts = firstOccurrences ts := by
  induction ts using List.reverseRecOn with
  | nil => rfl
  | append_singleton ts t ih => rw [distinct_snoc, firstOccurrences_snoc, ih]

/-! The members of a union. -/

theorem unionNode_unionOf (ts : List Ty) : (unionOf ts).UnionNode := by
  have hflat : ∀ u ∈ distinct (flattenAll ts), u.isUnion = false :=
    fun u hu => mem_flattenAll_isUnion ts (distinctFrom_subset hu)
  have hpairwise := distinctFrom_pairwise [] (flattenAll ts)
  rw [unionOf]
  rw [← distinct] at hpairwise
  generalize distinct (flattenAll ts) = us at hflat hpairwise
  cases us with
  | nil => trivial
  | cons u us =>
    cases us with
    | nil =>
      have hu := hflat u List.mem_cons_self
      cases u with
      | union _ => cases hu
      | _ => trivial
    | cons v us => exact ⟨by simp, hflat, hpairwise⟩

private theorem members_unionOf {ts : List Ty} (h : flattenAll ts ≠ []) :
    (unionOf ts).members = firstOccurrences (flattenAll ts) := by
  rw [← (unionNode_unionOf ts).flatten, flatten_unionOf h, distinct_eq_firstOccurrences]

theorem unionOf_of_flattenAll_eq_nil {ts : List Ty} (h : flattenAll ts = []) :
    unionOf ts = .unknown := by
  rw [unionOf, h]
  rfl

private theorem isUnion_of_mem_members_unionOf {ts : List Ty} {u : Ty}
    (hu : u ∈ (unionOf ts).members) : u.isUnion = false := by
  rw [← (unionNode_unionOf ts).flatten] at hu
  exact mem_flatten_isUnion _ hu

/-! A union among the candidates. -/

/-- What an inner list leaves out equals a type that it had before, and so does no good outside. -/
theorem distinctFrom_distinctFrom {kept kept' : List Ty} (ts : List Ty)
    (h : ∀ k' ∈ kept', ∃ k ∈ kept, k = k' ∨ same k k' = true) :
    distinctFrom kept (distinctFrom kept' ts) = distinctFrom kept ts := by
  induction ts generalizing kept kept' with
  | nil => rfl
  | cons t ts ih =>
    by_cases hinner : (kept'.any fun k => same k t) = true
    · have houter : (kept.any fun k => same k t) = true := by
        obtain ⟨k', hk', hsame⟩ := List.any_eq_true.mp hinner
        obtain ⟨k, hk, heq⟩ := h k' hk'
        refine List.any_eq_true.mpr ⟨k, hk, ?_⟩
        rcases heq with rfl | heq
        · exact hsame
        · exact same_trans heq hsame
      rw [distinctFrom, distinctFrom, if_pos hinner, if_pos houter, ih h]
    · rw [distinctFrom, if_neg hinner, distinctFrom, distinctFrom]
      by_cases houter : (kept.any fun k => same k t) = true
      · rw [if_pos houter, if_pos houter]
        obtain ⟨k, hk, hsame⟩ := List.any_eq_true.mp houter
        exact ih (List.forall_mem_cons.mpr ⟨⟨k, hk, .inr hsame⟩, h⟩)
      · rw [if_neg houter, if_neg houter]
        congr 1
        apply ih
        refine List.forall_mem_cons.mpr ⟨⟨t, List.mem_cons_self, .inl rfl⟩, fun k' hk' => ?_⟩
        obtain ⟨k, hk, heq⟩ := h k' hk'
        exact ⟨k, List.mem_cons_of_mem t hk, heq⟩

private theorem distinct_append_distinct (as bs : List Ty) :
    distinct (as ++ distinct bs) = distinct (as ++ bs) := by
  have hfrom : ∀ kept,
      distinctFrom kept (as ++ distinct bs) = distinctFrom kept (as ++ bs) := by
    induction as with
    | nil => exact fun kept => distinctFrom_distinctFrom bs (by simp)
    | cons a as ih => exact fun kept => by simp only [List.cons_append, distinctFrom, ih]
  exact hfrom []

/-- An image that equals a type can be found among the images of what is kept. -/
theorem any_map_distinct {f : Ty → Ty}
    (hf : ∀ {a b : Ty}, same a b = true → same (f a) (f b) = true) (ts : List Ty) (t : Ty) :
    (((distinct ts).map f).any fun u => same u t) = (ts.map f).any fun u => same u t := by
  rw [Bool.eq_iff_iff]
  simp only [List.any_eq_true, List.mem_map, exists_exists_and_eq_and]
  constructor
  · rintro ⟨u, hu, hut⟩
    exact ⟨u, distinctFrom_subset hu, hut⟩
  · rintro ⟨u, hu, hut⟩
    rcases exists_mem_distinctFrom [] hu with ⟨k, hk, -⟩ | ⟨v, hv, heq⟩
    · cases hk
    · refine ⟨v, hv, ?_⟩
      rcases heq with rfl | heq
      · exact hut
      · exact same_trans (hf heq) hut

theorem any_distinct (ts : List Ty) (t : Ty) :
    ((distinct ts).any fun u => same u t) = ts.any fun u => same u t := by
  simpa using any_map_distinct (f := id) (fun h => h) ts t

theorem distinct_append_distinct_append (as bs cs : List Ty) :
    distinct (as ++ distinct bs ++ cs) = distinct (as ++ bs ++ cs) := by
  induction cs using List.reverseRecOn with
  | nil => simpa using distinct_append_distinct as bs
  | append_singleton cs c ih =>
    have hany : ((as ++ distinct bs ++ cs).any fun u => same u c) =
        (as ++ bs ++ cs).any fun u => same u c := by
      simp only [List.any_append, any_distinct]
    rw [← List.append_assoc, ← List.append_assoc, distinct_snoc, distinct_snoc, ih, hany]

/-- A candidate that is a union may be replaced by its candidates. -/
theorem unionOf_splice (xs : List Ty) {ys : List Ty} (zs : List Ty) (h : flattenAll ys ≠ []) :
    unionOf (xs ++ [unionOf ys] ++ zs) = unionOf (xs ++ ys ++ zs) := by
  have hnested : flattenAll (xs ++ [unionOf ys] ++ zs) =
      flattenAll xs ++ distinct (flattenAll ys) ++ flattenAll zs := by
    rw [← flatten_unionOf h]
    simp [flattenAll_eq_flatMap]
  have hflat : flattenAll (xs ++ ys ++ zs) = flattenAll xs ++ flattenAll ys ++ flattenAll zs := by
    simp [flattenAll_eq_flatMap]
  have hdef : ∀ ts, unionOf ts = ofMembers (distinct (flattenAll ts)) := fun _ => rfl
  rw [hdef (xs ++ [unionOf ys] ++ zs), hdef (xs ++ ys ++ zs), hnested, hflat,
    distinct_append_distinct_append]

/-! Equality of unions. -/

theorem sameSet_distinct {as bs : List Ty} (h : SameSet as bs) :
    SameSet (distinct as) (distinct bs) := by
  -- An element has an equal one on the other side, and that one or an equal one is kept there.
  have hkept : ∀ {ts : List Ty} {t : Ty}, t ∈ ts →
      ∃ u ∈ distinct ts, ∀ v, (same v t = true → same v u = true) ∧
        (same t v = true → same u v = true) := by
    intro ts t ht
    rcases exists_mem_distinctFrom [] ht with ⟨k, hk, -⟩ | ⟨u, hu, heq⟩
    · cases hk
    · refine ⟨u, hu, fun v => ?_⟩
      rcases heq with rfl | heq
      · exact ⟨fun hv => hv, fun hv => hv⟩
      · exact ⟨fun hv => same_trans hv (same_symm heq), fun hv => same_trans heq hv⟩
  constructor
  · intro a ha
    obtain ⟨b, hb, hab⟩ := h.1 a (distinctFrom_subset ha)
    obtain ⟨u, hu, hsame⟩ := hkept hb
    exact ⟨u, hu, (hsame a).1 hab⟩
  · intro b hb
    obtain ⟨a, ha, hab⟩ := h.2 b (distinctFrom_subset hb)
    obtain ⟨u, hu, hsame⟩ := hkept ha
    exact ⟨u, hu, (hsame b).2 hab⟩

private theorem same_ofMembers {as bs : List Ty} (h : SameSet as bs)
    (has : as.Pairwise fun a b => same a b = false)
    (hbs : bs.Pairwise fun a b => same a b = false) :
    same (ofMembers as) (ofMembers bs) = true := by
  match as, bs with
  | [], [] => simp [ofMembers, same]
  | [], b :: bs =>
    obtain ⟨a, ha, -⟩ := h.2 b List.mem_cons_self
    cases ha
  | a :: as, [] =>
    obtain ⟨b, hb, -⟩ := h.1 a List.mem_cons_self
    cases hb
  | [a], [b] => simpa [SameSet, ofMembers] using h
  | [a], b :: c :: bs =>
    -- Both of the first two would equal the only type on the other side.
    have hab : same a b = true := by simpa using h.2 b (by simp)
    have hac : same a c = true := by simpa using h.2 c (by simp)
    have hbc : same b c = false := by simpa using List.rel_of_pairwise_cons hbs (by simp)
    rw [same_trans (same_symm hab) hac] at hbc
    cases hbc
  | a :: c :: as, [b] =>
    have hab : same a b = true := by simpa using h.1 a (by simp)
    have hcb : same c b = true := by simpa using h.1 c (by simp)
    have hac : same a c = false := by simpa using List.rel_of_pairwise_cons has (by simp)
    rw [same_trans hab (same_symm hcb)] at hac
    cases hac
  | a :: a' :: as, b :: b' :: bs =>
    change same (.union _) (.union _) = true
    rw [same, sameSet_iff]
    exact h

/-- Unions are equal if their candidates have the same members. -/
theorem same_unionOf {xs ys : List Ty} (h : SameSet (flattenAll xs) (flattenAll ys)) :
    same (unionOf xs) (unionOf ys) = true :=
  same_ofMembers (sameSet_distinct h) (distinctFrom_pairwise [] _) (distinctFrom_pairwise [] _)

theorem sameSet_of_perm {xs ys : List Ty} (h : xs.Perm ys) (hself : ∀ x ∈ xs, x.Every NumberNode) :
    SameSet (flattenAll xs) (flattenAll ys) := by
  have hmem : ∀ u, u ∈ flattenAll xs ↔ u ∈ flattenAll ys := by
    intro u
    simp only [flattenAll_eq_flatMap, List.mem_flatMap, h.mem_iff]
  have hsame : ∀ u ∈ flattenAll xs, same u u = true :=
    fun u hu => same_self u (Every.flattenAll xs hself hu)
  constructor
  · intro u hu
    exact ⟨u, (hmem u).mp hu, hsame u hu⟩
  · intro u hu
    exact ⟨u, (hmem u).mpr hu, hsame u ((hmem u).mpr hu)⟩

/-- A union of any candidates, which may be unions that were made by hand, has two or more members,
none of them a union and all of them different, or is no union. It has the first occurrences of the
members of the candidates in order. A union among the candidates counts as its own candidates, given
that these have a member. Candidates in another order give an equal union, given that every float of
known value in them is a number. -/
theorem unionOf_laws (xs : List Ty) :
    (∀ ts, unionOf xs = .union ts → 2 ≤ ts.length) ∧
    (∀ t ∈ (unionOf xs).members, t.isUnion = false) ∧
    ((unionOf xs).members.Pairwise fun a b => same a b = false) ∧
    (flattenAll xs = [] → unionOf xs = .unknown) ∧
    (flattenAll xs ≠ [] → (unionOf xs).members = firstOccurrences (flattenAll xs)) ∧
    (∀ ys zs, flattenAll ys ≠ [] →
      unionOf (xs ++ [unionOf ys] ++ zs) = unionOf (xs ++ ys ++ zs)) ∧
    ∀ ys, xs.Perm ys → (∀ x ∈ xs, x.Every NumberNode) →
      same (unionOf xs) (unionOf ys) = true := by
  have hnode := unionNode_unionOf xs
  refine ⟨fun ts hts => ?_, fun t => isUnion_of_mem_members_unionOf, pairwise_members hnode,
    unionOf_of_flattenAll_eq_nil, members_unionOf, fun ys zs => unionOf_splice xs zs,
    fun ys hperm hself => same_unionOf (sameSet_of_perm hperm hself)⟩
  rw [hts] at hnode
  exact hnode.two_le

/-- A union in a union, made by hand. -/
def nestedCandidate : Ty := .union [.int (some 1), .union [.object "Foo" none, .int (some 1)]]

theorem nestedCandidate_laws :
    flattenAll [nestedCandidate, .object "FOO" none] ≠ [] ∧
    (unionOf [nestedCandidate, .object "FOO" none]).members =
      [.int (some 1), .object "Foo" none] ∧
    unionOf ([Ty.null] ++ [unionOf [nestedCandidate]] ++ [Ty.null]) =
      unionOf ([Ty.null] ++ [nestedCandidate] ++ [Ty.null]) ∧
    (∀ x ∈ [nestedCandidate, .object "FOO" none], x.Every NumberNode) ∧
    same (unionOf [nestedCandidate, .object "FOO" none])
      (unionOf [.object "FOO" none, nestedCandidate]) = true := by
  obtain ⟨-, -, -, -, hmembers, -, hperm⟩ := unionOf_laws [nestedCandidate, .object "FOO" none]
  have hflat : flattenAll [nestedCandidate, .object "FOO" none] =
      [.int (some 1), .object "Foo" none, .int (some 1), .object "FOO" none] := rfl
  have hne : flattenAll [nestedCandidate, .object "FOO" none] ≠ [] := by
    rw [hflat]
    exact List.cons_ne_nil _ _
  have hself : ∀ x ∈ [nestedCandidate, .object "FOO" none], x.Every NumberNode := by
    simp [nestedCandidate, Every, parts, partsOfAll, NumberNode]
  refine ⟨hne, ?_, (unionOf_laws [.null]).2.2.2.2.2.1 [nestedCandidate] [.null] ?_, hself,
    hperm _ (List.Perm.swap _ _ _) hself⟩
  · have hlower : Text.lower "Foo" = Text.lower "FOO" := by decide
    rw [hmembers hne, hflat]
    simp [firstOccurrences, same, hlower]
  · exact List.cons_ne_nil _ _

/-- A union of one candidate that is not a number differs from itself. -/
theorem unionOf_nan_differs :
    let nan : Ty := .float (some (0.0 / 0.0))
    [nan].Perm [nan] ∧ same (unionOf [nan]) (unionOf [nan]) = false := by
  exact ⟨List.Perm.refl _, by decide +kernel⟩

end PhpTypes.Ty
