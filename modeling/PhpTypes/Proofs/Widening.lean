import PhpTypes.Proofs.UnionLaws

/-!
# Widening

Widening takes the values from the scalars among the members of a type. It respects equality, so it
makes no difference whether repeated members are left out before or after, and a union is widened by
widening its candidates. The candidates have to have members: a union without any, which only a hand
can make, adds nothing to a union but widens to the unknown type.
-/

namespace PhpTypes.Ty

mutual

/-- What a union has as soon as its members have it, and all other types have, holds of
all types. -/
@[elab_as_elim]
theorem nestedInduction {P : Ty → Prop} (plain : ∀ t : Ty, t.isUnion = false → P t)
    (union : ∀ ts : List Ty, (∀ t ∈ ts, P t) → P (.union ts)) : ∀ t : Ty, P t
  | .union ts => union ts (nestedInductionAll plain union ts)
  | .unknown | .null | .boolean | .int _ | .float _ | .string _ | .array _ | .map _ _ | .object _ _
  | .intersection _ | .function _ _ => plain _ rfl

private theorem nestedInductionAll {P : Ty → Prop} (plain : ∀ t : Ty, t.isUnion = false → P t)
    (union : ∀ ts : List Ty, (∀ t ∈ ts, P t) → P (.union ts)) : ∀ ts : List Ty, ∀ t ∈ ts, P t
  | [] => by simp
  | t :: ts =>
    List.forall_mem_cons.mpr ⟨nestedInduction plain union t, nestedInductionAll plain union ts⟩

end

/-! Widening respects equality. -/

private theorem widenAll_eq_map (ts : List Ty) : widenAll ts = ts.map widen := by
  induction ts with
  | nil => rfl
  | cons t ts ih => rw [widenAll, ih, List.map_cons]

private theorem isUnion_of_same {a b : Ty} (h : same a b = true) : a.isUnion = b.isUnion := by
  revert h
  fun_cases same a b
  all_goals simp_all [isUnion]

private theorem isUnion_widen {t : Ty} (h : t.isUnion = false) : t.widen.isUnion = false := by
  cases t with
  | union ts => cases h
  | _ => rfl

private theorem unionNode_widen (t : Ty) : t.widen.UnionNode := by
  cases t with
  | union ts => exact unionNode_unionOf (widenAll ts)
  | _ => trivial

private theorem sameSet_flatten {a b : Ty} (ha : a.UnionNode) (hb : b.UnionNode)
    (h : same a b = true) : SameSet a.flatten b.flatten := by
  rw [ha.flatten, hb.flatten]
  have hunion := isUnion_of_same h
  cases a with
  | union as =>
    cases b with
    | union bs =>
      rw [same, sameSet_iff] at h
      exact h
    | _ => cases hunion
  | _ =>
    cases b with
    | union bs => cases hunion
    | _ => simpa [SameSet, members] using h

private theorem mem_flattenAll_widen {ts : List Ty} {u : Ty} :
    u ∈ flattenAll (widenAll ts) ↔ ∃ t ∈ ts, u ∈ t.widen.flatten := by
  simp [widenAll_eq_map, flattenAll_eq_flatMap]

private theorem same_widen {a b : Ty} (h : same a b = true) : same a.widen b.widen = true := by
  induction a using nestedInduction generalizing b with
  | plain a ha =>
    revert h ha
    fun_cases same a b
    all_goals simp_all [widen, same, isUnion]
  | union as ih =>
    cases b with
    | union bs =>
      rw [same, sameSet_iff] at h
      have hflat : ∀ a ∈ as, ∀ b, same a b = true → SameSet a.widen.flatten b.widen.flatten :=
        fun a ha b hab => sameSet_flatten (unionNode_widen a) (unionNode_widen b) (ih a ha hab)
      apply same_unionOf
      constructor
      · intro u hu
        obtain ⟨a, ha, hu⟩ := mem_flattenAll_widen.mp hu
        obtain ⟨b, hb, hab⟩ := h.1 a ha
        obtain ⟨v, hv, huv⟩ := (hflat a ha b hab).1 u hu
        exact ⟨v, mem_flattenAll_widen.mpr ⟨b, hb, hv⟩, huv⟩
      · intro v hv
        obtain ⟨b, hb, hv⟩ := mem_flattenAll_widen.mp hv
        obtain ⟨a, ha, hab⟩ := h.2 b hb
        obtain ⟨u, hu, huv⟩ := (hflat a ha b hab).2 v hv
        exact ⟨u, mem_flattenAll_widen.mpr ⟨a, ha, hu⟩, huv⟩
    | _ => cases isUnion_of_same h

/-! Widened types are wide. -/

/-- The members of a widened type have no values, and so nothing to lose. -/
theorem wide_of_mem_flatten_widen {t u : Ty} (hu : u ∈ t.widen.flatten) :
    u.widen = u ∧ u.isLiteral = false := by
  induction t using nestedInduction with
  | plain t ht =>
    rw [flatten_of_isUnion_eq_false (isUnion_widen ht), List.mem_singleton] at hu
    subst hu
    cases t with
    | union ts => cases ht
    | _ => exact ⟨rfl, rfl⟩
  | union ts ih =>
    change u ∈ (unionOf (widenAll ts)).flatten at hu
    by_cases hne : flattenAll (widenAll ts) = []
    · rw [unionOf_of_flattenAll_eq_nil hne] at hu
      obtain rfl : u = .unknown := by simpa [flatten] using hu
      exact ⟨rfl, rfl⟩
    · rw [flatten_unionOf hne] at hu
      obtain ⟨t, ht, hmem⟩ := mem_flattenAll_widen.mp (distinctFrom_subset hu)
      exact ih t ht hmem

/-! Widening and unions. -/

private theorem unionOf_of_flat {ts : List Ty} (h : ∀ t ∈ ts, t.isUnion = false) :
    unionOf ts = ofMembers (distinct ts) := by
  rw [unionOf, flattenAll_eq_flatMap, flatMap_flatten_of_flat h]

private theorem widen_ofMembers {ts : List Ty} (h : ∀ t ∈ ts, t.isUnion = false) :
    widen (ofMembers ts) = ofMembers (distinct (ts.map widen)) := by
  have hflat : ∀ t ∈ ts.map widen, t.isUnion = false := by
    intro t ht
    obtain ⟨u, hu, rfl⟩ := List.mem_map.mp ht
    exact isUnion_widen (h u hu)
  match ts with
  | [] => rfl
  | [t] => rfl
  | t :: u :: ts =>
    rw [← unionOf_of_flat hflat, ← widenAll_eq_map]
    rfl

private theorem distinct_map_distinct {f : Ty → Ty}
    (hf : ∀ {a b : Ty}, same a b = true → same (f a) (f b) = true) (ts : List Ty) :
    distinct ((distinct ts).map f) = distinct (ts.map f) := by
  induction ts using List.reverseRecOn with
  | nil => rfl
  | append_singleton ts t ih =>
    rw [distinct_snoc, List.map_append, List.map_append, List.map_singleton, distinct_snoc]
    by_cases hany : (ts.any fun u => same u t) = true
    · -- The image of the repeated type is repeated as well.
      have himage : ((ts.map f).any fun u => same u (f t)) = true := by
        obtain ⟨u, hu, hut⟩ := List.any_eq_true.mp hany
        exact List.any_eq_true.mpr ⟨f u, List.mem_map_of_mem hu, hf hut⟩
      rw [if_pos hany, if_pos himage, List.map_nil, List.append_nil, List.append_nil, ih]
    · rw [if_neg hany, List.map_singleton, distinct_snoc, any_map_distinct hf, ih]

private theorem widen_unionOf (xs : List Ty) :
    widen (unionOf xs) = ofMembers (distinct ((flattenAll xs).map widen)) := by
  have hflat : ∀ u ∈ distinct (flattenAll xs), u.isUnion = false :=
    fun u hu => mem_flattenAll_isUnion xs (distinctFrom_subset hu)
  rw [unionOf, widen_ofMembers hflat, distinct_map_distinct same_widen]

/-- Widening for a second time changes nothing. -/
theorem widen_widen (t : Ty) : t.widen.widen = t.widen := by
  have hnode := unionNode_widen t
  have hmembers : ∀ u ∈ t.widen.members, u.widen = u ∧ u.isUnion = false := by
    intro u hu
    rw [← hnode.flatten] at hu
    exact ⟨(wide_of_mem_flatten_widen hu).1, mem_flatten_isUnion _ hu⟩
  have hmap : t.widen.members.map widen = t.widen.members := by
    rw [List.map_congr_left (g := id) fun u hu => (hmembers u hu).1, List.map_id]
  calc t.widen.widen = widen (ofMembers t.widen.members) := by rw [ofMembers_members hnode]
    _ = ofMembers (distinct (t.widen.members.map widen)) :=
      widen_ofMembers fun u hu => (hmembers u hu).2
    _ = ofMembers t.widen.members := by rw [hmap, distinct_of_pairwise (pairwise_members hnode)]
    _ = t.widen := ofMembers_members hnode

/-- Every union has members, also those among the members of a union. -/
inductive Populated : Ty → Prop where
  | plain {t : Ty} (h : t.isUnion = false) : Populated t
  | union {ts : List Ty} (hne : ts ≠ []) (h : ∀ t ∈ ts, Populated t) : Populated (.union ts)

section

variable {x : Ty} {xs : List Ty}

private theorem widenAll_splice
    (h : ∀ x ∈ xs, ∀ as cs, distinct (as ++ x.widen.flatten ++ cs) =
      distinct (as ++ x.flatten.map widen ++ cs)) (as cs : List Ty) :
    distinct (as ++ flattenAll (widenAll xs) ++ cs) =
      distinct (as ++ (flattenAll xs).map widen ++ cs) := by
  induction xs generalizing as with
  | nil => rfl
  | cons x xs ih =>
    obtain ⟨hx, hxs⟩ := List.forall_mem_cons.mp h
    have hfirst := hx as (flattenAll (widenAll xs) ++ cs)
    have hrest := ih hxs (as ++ x.flatten.map widen)
    simp only [widenAll, flattenAll, List.map_append, List.append_assoc] at hfirst hrest ⊢
    rw [hfirst, hrest]

/-- In a list without repetition the members of a widened type may be put in as the type
has them. -/
theorem Populated.splice (h : Populated x) (as cs : List Ty) :
    distinct (as ++ x.widen.flatten ++ cs) = distinct (as ++ x.flatten.map widen ++ cs) := by
  induction h generalizing as cs with
  | @plain t ht =>
    rw [flatten_of_isUnion_eq_false (isUnion_widen ht), flatten_of_isUnion_eq_false ht,
      List.map_singleton]
  | @union ts hne _ ih =>
    have hmembers : flattenAll (widenAll ts) ≠ [] := by
      obtain ⟨t, us, rfl⟩ := List.exists_cons_of_ne_nil hne
      rw [widenAll, flattenAll, (unionNode_widen t).flatten]
      exact List.append_ne_nil_of_left_ne_nil (unionNode_widen t).members_ne_nil _
    change distinct (as ++ (unionOf (widenAll ts)).flatten ++ cs) =
      distinct (as ++ (flattenAll ts).map widen ++ cs)
    rw [flatten_unionOf hmembers, distinct_append_distinct_append, widenAll_splice ih]

/-- A union is widened by widening its candidates. -/
theorem widen_unionOf_eq (h : ∀ x ∈ xs, Populated x) :
    widen (unionOf xs) = unionOf (xs.map widen) := by
  have hsplice := widenAll_splice (fun x hx => (h x hx).splice) [] []
  simp only [List.nil_append, List.append_nil] at hsplice
  rw [widen_unionOf, ← widenAll_eq_map xs, unionOf, hsplice]

end

/-- Widening for a second time gives an equal type, and indeed the same one, and no member of a
widened type has a value. A union is widened by widening its candidates, given that every union
among them and among their members has members. Equal types widen to equal types. -/
theorem widen_laws :
    (∀ t : Ty, t.widen.widen = t.widen ∧
      (t.Every NumberNode → same t.widen.widen t.widen = true) ∧
      ∀ u ∈ t.widen.members, u.isLiteral = false) ∧
    (∀ xs : List Ty, (∀ x ∈ xs, Populated x) → widen (unionOf xs) = unionOf (xs.map widen)) ∧
    ∀ a b : Ty, same a b = true → same a.widen b.widen = true := by
  refine ⟨fun t => ⟨widen_widen t, fun hself => ?_, fun u hu => ?_⟩, fun xs => widen_unionOf_eq,
    fun a b => same_widen⟩
  · rw [widen_widen]
    exact same_widen (same_self t hself)
  · rw [← (unionNode_widen t).flatten] at hu
    exact (wide_of_mem_flatten_widen hu).2

/-- Members that differ in their values only, one of them in a union of a union. -/
def valuedCandidates : List Ty :=
  [.string (some "a"), .union [.int (some 1), .union [.string (some "b"), .null], .int (some 2)]]

theorem valuedCandidates_widen :
    (∀ x ∈ valuedCandidates, Populated x) ∧
    widen (unionOf valuedCandidates) = unionOf (valuedCandidates.map widen) ∧
    unionOf (valuedCandidates.map widen) = .union [.string none, .int none, .null] ∧
    (unionOf valuedCandidates).Every NumberNode ∧
    same (unionOf valuedCandidates).widen.widen (unionOf valuedCandidates).widen = true ∧
    same (unionOf valuedCandidates) (unionOf valuedCandidates.reverse) = true ∧
    same (unionOf valuedCandidates).widen (unionOf valuedCandidates.reverse).widen = true := by
  obtain ⟨htwice, hunion, hequal⟩ := widen_laws
  have hpopulated : ∀ x ∈ valuedCandidates, Populated x := by
    have hnull : Populated (.union [.string (some "b"), .null]) :=
      .union (by simp) (by simpa using ⟨.plain rfl, .plain rfl⟩)
    have houter : Populated (.union [.int (some 1), .union [.string (some "b"), .null],
        .int (some 2)]) :=
      .union (by simp) (by simpa using ⟨.plain rfl, hnull, .plain rfl⟩)
    simpa [valuedCandidates] using ⟨.plain rfl, houter⟩
  have hself : ∀ x ∈ valuedCandidates, x.Every NumberNode := by
    simp [valuedCandidates, Every, parts, partsOfAll, NumberNode]
  have hvalues : unionOf valuedCandidates = .union [.string (some "a"), .int (some 1),
      .string (some "b"), .null, .int (some 2)] := by
    simp [valuedCandidates, unionOf, flattenAll, flatten, distinct, distinctFrom, same, ofMembers]
  have hnumbers : (unionOf valuedCandidates).Every NumberNode := by
    rw [hvalues]
    simp [Every, parts, partsOfAll, NumberNode]
  have hsame : same (unionOf valuedCandidates) (unionOf valuedCandidates.reverse) = true :=
    same_unionOf (sameSet_of_perm (List.reverse_perm _).symm hself)
  refine ⟨hpopulated, hunion _ hpopulated, ?_, hnumbers, (htwice _).2.1 hnumbers, hsame,
    hequal _ _ hsame⟩
  simp [valuedCandidates, widen, widenAll, unionOf, flattenAll, flatten, distinct, distinctFrom,
    same, ofMembers]

/-- A union without members adds nothing to a union, but widens to a type that does. -/
theorem widen_empty_union_differs :
    let xs : List Ty := [.int none, .union []]
    widen (unionOf xs) = .int none ∧ unionOf (xs.map widen) = .union [.int none, .unknown] ∧
    same (widen (unionOf xs)) (unionOf (xs.map widen)) = false := by
  simp [widen, widenAll, unionOf, flattenAll, flatten, distinct, distinctFrom, same, ofMembers]

end PhpTypes.Ty
