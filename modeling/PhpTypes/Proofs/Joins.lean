import PhpTypes.Proofs.Equality
import PhpTypes.Proofs.WellFormed

/-!
# Joins

What is joined is not lost: a union covers each of its candidates, and a scope after a branching
covers the scope of each branch. What is the same in all branches is the same afterwards.
-/

namespace PhpTypes

namespace Ty

theorem flattenAll_eq_flatMap (ts : List Ty) : flattenAll ts = ts.flatMap flatten := by
  induction ts with
  | nil => rfl
  | cons t ts ih => rw [flattenAll, ih, List.flatMap_cons]

theorem flatten_of_isUnion_eq_false {t : Ty} (h : t.isUnion = false) : t.flatten = [t] := by
  cases t with
  | union ts => cases h
  | _ => rfl

theorem flatMap_flatten_of_flat {ts : List Ty} (h : ∀ t ∈ ts, t.isUnion = false) :
    ts.flatMap flatten = ts := by
  induction ts with
  | nil => rfl
  | cons t ts ih =>
    rw [List.forall_mem_cons] at h
    rw [List.flatMap_cons, flatten_of_isUnion_eq_false h.1, ih h.2, List.singleton_append]

private theorem flatten_ofMembers {t : Ty} {ts : List Ty} (h : ∀ u ∈ t :: ts, u.isUnion = false) :
    (ofMembers (t :: ts)).flatten = t :: ts := by
  cases ts with
  | nil => exact flatten_of_isUnion_eq_false (h t List.mem_cons_self)
  | cons u us =>
    change flattenAll (t :: u :: us) = _
    rw [flattenAll_eq_flatMap, flatMap_flatten_of_flat h]

/-- A union that meets the union condition has no other members than those that it lists. -/
theorem UnionNode.flatten {t : Ty} (h : t.UnionNode) : t.flatten = t.members := by
  cases t with
  | union ts =>
    change flattenAll ts = ts
    rw [flattenAll_eq_flatMap, flatMap_flatten_of_flat h.flat]
  | _ => rfl

theorem UnionNode.members_ne_nil {t : Ty} (h : t.UnionNode) : t.members ≠ [] := by
  cases t with
  | union ts =>
    have htwo := h.two_le
    rintro (rfl : ts = [])
    simp at htwo
  | _ => simp [members]

/-! What a type covers. -/

/-- A type has another one among its members. -/
def Includes (t u : Ty) : Prop := ∃ v ∈ t.flatten, v = u ∨ same v u = true

/-- A type has all members of another one among its own. -/
def Covers (t u : Ty) : Prop := ∀ v ∈ u.flatten, t.Includes v

theorem Covers.refl (t : Ty) : t.Covers t := fun v hv => ⟨v, hv, .inl rfl⟩

theorem Covers.trans {t u v : Ty} (htu : t.Covers u) (huv : u.Covers v) : t.Covers v := by
  intro w hw
  obtain ⟨w', hw', heq⟩ := huv w hw
  obtain ⟨w'', hw'', heq'⟩ := htu w' hw'
  refine ⟨w'', hw'', ?_⟩
  rcases heq with rfl | heq
  · exact heq'
  · rcases heq' with rfl | heq'
    · exact .inr heq
    · exact .inr (same_trans heq' heq)

theorem exists_mem_distinctFrom {u : Ty} (kept : List Ty) {ts : List Ty} (h : u ∈ ts) :
    (∃ k ∈ kept, same k u = true) ∨ ∃ v ∈ distinctFrom kept ts, v = u ∨ same v u = true := by
  -- Each type that is kept joins those that later ones are compared with.
  induction ts generalizing kept with
  | nil => cases h
  | cons t ts ih =>
    rw [distinctFrom]
    split
    · rename_i hkept
      rcases List.mem_cons.mp h with rfl | h
      · exact .inl (by simpa using hkept)
      · exact ih kept h
    · rcases List.mem_cons.mp h with rfl | h
      · exact .inr ⟨u, List.mem_cons_self, .inl rfl⟩
      · rcases ih (t :: kept) h with ⟨k, hk, hsame⟩ | ⟨v, hv, hsame⟩
        · rcases List.mem_cons.mp hk with rfl | hk
          · exact .inr ⟨k, List.mem_cons_self, .inr hsame⟩
          · exact .inl ⟨k, hk, hsame⟩
        · exact .inr ⟨v, List.mem_cons_of_mem t hv, hsame⟩

theorem flatten_unionOf {ts : List Ty} (h : flattenAll ts ≠ []) :
    (unionOf ts).flatten = distinct (flattenAll ts) := by
  have hflat : ∀ u ∈ distinct (flattenAll ts), u.isUnion = false := fun u hu =>
    mem_flattenAll_isUnion ts (distinctFrom_subset hu)
  rw [unionOf]
  cases hd : distinct (flattenAll ts) with
  | nil =>
    obtain ⟨u, hu⟩ := List.exists_mem_of_ne_nil _ h
    rcases exists_mem_distinctFrom [] hu with ⟨k, hk, -⟩ | ⟨v, hv, -⟩
    · cases hk
    · rw [← distinct, hd] at hv
      cases hv
  | cons t us =>
    rw [hd] at hflat
    exact flatten_ofMembers hflat

/-- No member of a candidate is lost in a union. -/
theorem covers_unionOf {t : Ty} {ts : List Ty} (h : t ∈ ts) : (unionOf ts).Covers t := by
  intro u hu
  have hmem : u ∈ flattenAll ts := by
    rw [flattenAll_eq_flatMap]
    exact List.mem_flatMap.mpr ⟨t, h, hu⟩
  rw [Includes, flatten_unionOf (List.ne_nil_of_mem hmem)]
  rcases exists_mem_distinctFrom [] hmem with ⟨k, hk, -⟩ | hex
  · cases hk
  · exact hex

/-! Unions of one type. -/

theorem distinctFrom_append {kept as : List Ty} (bs : List Ty)
    (hne : as.Pairwise fun a b => same a b = false)
    (hnew : ∀ k ∈ kept, ∀ a ∈ as, same k a = false) :
    distinctFrom kept (as ++ bs) = as ++ distinctFrom (as.reverse ++ kept) bs := by
  induction as generalizing kept with
  | nil => rfl
  | cons a as ih =>
    rw [List.pairwise_cons] at hne
    have hkept : (kept.any fun k => same k a) = false := by
      simpa using fun k hk => hnew k hk a List.mem_cons_self
    rw [List.cons_append, distinctFrom, hkept]
    simp only [Bool.false_eq_true, if_false, List.cons_append, List.reverse_cons,
      List.append_assoc]
    rw [List.nil_append, ← ih hne.2]
    rintro k hk b hb
    rcases List.mem_cons.mp hk with rfl | hk
    · exact hne.1 b hb
    · exact hnew k hk b (List.mem_cons_of_mem a hb)

theorem distinct_of_pairwise {ts : List Ty} (h : ts.Pairwise fun a b => same a b = false) :
    distinct ts = ts := by
  simpa [distinct, distinctFrom] using distinctFrom_append [] h (List.forall_mem_nil _)

private theorem distinctFrom_eq_nil {kept ts : List Ty}
    (h : ∀ t ∈ ts, ∃ k ∈ kept, same k t = true) : distinctFrom kept ts = [] := by
  induction ts with
  | nil => rfl
  | cons t ts ih =>
    rw [List.forall_mem_cons] at h
    rw [distinctFrom, if_pos (List.any_eq_true.mpr h.1), ih h.2]

theorem ofMembers_members {t : Ty} (h : t.UnionNode) : ofMembers t.members = t := by
  cases t with
  | union ts =>
    match ts, h.two_le with
    | _ :: _ :: _, _ => rfl
  | _ => rfl

theorem pairwise_members {t : Ty} (h : t.UnionNode) :
    t.members.Pairwise fun a b => same a b = false := by
  cases t with
  | union ts => exact h.distinct
  | _ => exact List.pairwise_singleton _ _

theorem unionOf_singleton {t : Ty} (h : t.UnionNode) : unionOf [t] = t := by
  have hmembers : flattenAll [t] = t.members := by
    rw [flattenAll_eq_flatMap, List.flatMap_singleton, h.flatten]
  rw [unionOf, hmembers, distinct_of_pairwise (pairwise_members h), ofMembers_members h]

/-- The union of copies of one type is that type. -/
theorem unionOf_eq_of_forall_eq {t : Ty} {ts : List Ty} (hne : ts ≠ []) (heq : ∀ u ∈ ts, u = t)
    (ht : t.UnionNode) (hself : t.Every NumberNode) : unionOf ts = t := by
  obtain ⟨u, us, rfl⟩ := List.exists_cons_of_ne_nil hne
  obtain ⟨rfl, heq⟩ := List.forall_mem_cons.mp heq
  -- The first copy gives all members, and the others have only members that are known by then.
  have hknown : ∀ v ∈ us.flatMap flatten, ∃ k ∈ u.members.reverse ++ [], same k v = true := by
    intro v hv
    obtain ⟨w, hw, hv⟩ := List.mem_flatMap.mp hv
    rw [heq w hw, ht.flatten] at hv
    exact ⟨v, by simpa using hv, same_self v (hself.member hv)⟩
  rw [unionOf, flattenAll_eq_flatMap, List.flatMap_cons, ht.flatten, distinct,
    distinctFrom_append _ (pairwise_members ht) (by simp), distinctFrom_eq_nil hknown,
    List.append_nil, ofMembers_members ht]

end Ty

namespace Scope

theorem get?_set_self (s : Scope) (x : String) (t : Ty) : (s.set x t).get? x = some t :=
  Dict.get?_set_self s.bindings x t

theorem get?_set_ne (s : Scope) {x y : String} (h : y ≠ x) (t : Ty) :
    (s.set x t).get? y = s.get? y :=
  Dict.get?_set_ne s.bindings h t

theorem get?_unset_ne (s : Scope) {x y : String} (h : y ≠ x) : (s.unset x).get? y = s.get? y :=
  Dict.get?_erase_ne s.bindings h

private theorem get?_foldl_set (types : String → Ty) (names : List String) (s : Scope)
    (x : String) : (names.foldl (fun s name => s.set name (types name)) s).get? x =
      if x ∈ names then some (types x) else s.get? x := by
  induction names generalizing s with
  | nil => simp
  | cons n ns ih =>
    rw [List.foldl_cons, ih]
    by_cases hn : x = n
    · subst hn
      simp [get?_set_self]
    · simp [get?_set_ne s hn, hn]

private theorem candidates_ne_nil_iff {branches : List Scope} {x : String} :
    candidates branches x ≠ [] ↔ x ∈ (branches.flatMap names).eraseDups := by
  simp [candidates, names, Dict.mem_keys_iff, get?]

/-- After a join a variable has the union of its types in those branches that bind it. -/
theorem get?_merge (s : Scope) (branches : List Scope) (x : String) :
    (s.merge branches).get? x =
      if candidates branches x = [] then s.get? x
      else some (Ty.unionOf (candidates branches x)) := by
  rw [merge, get?_foldl_set (fun name => Ty.unionOf (candidates branches name))]
  by_cases h : candidates branches x = []
  · rw [if_pos h, if_neg (candidates_ne_nil_iff.not.mp (not_not.mpr h))]
  · rw [if_neg h, if_pos (candidates_ne_nil_iff.mp h)]

/-- A variable that has one and the same type in the scope and in all branches keeps it. -/
theorem get?_merge_of_forall_eq {s : Scope} {branches : List Scope} {x : String}
    (heq : ∀ b ∈ branches, b.get? x = s.get? x)
    (ht : ∀ t, s.get? x = some t → t.UnionNode ∧ t.Every Ty.NumberNode) :
    (s.merge branches).get? x = s.get? x := by
  rw [get?_merge]
  split
  · rfl
  · rename_i hne
    have hcand : ∀ u ∈ candidates branches x, s.get? x = some u := by
      intro u hu
      obtain ⟨b, hb, hu⟩ := List.mem_filterMap.mp hu
      rw [← heq b hb, hu]
    obtain ⟨t, hmem⟩ := List.exists_mem_of_ne_nil _ hne
    have hs := hcand t hmem
    rw [hs, Ty.unionOf_eq_of_forall_eq hne ?_ (ht t hs).1 (ht t hs).2]
    intro u hu
    exact Option.some.inj ((hcand u hu).symm.trans hs)

/-- A scope binds what another one binds, with types that cover the other's. -/
def Covers (s env : Scope) : Prop :=
  ∀ x t, env.get? x = some t → ∃ u, s.get? x = some u ∧ u.Covers t

theorem Covers.refl (s : Scope) : s.Covers s := fun _ t ht => ⟨t, ht, .refl t⟩

theorem Covers.set {s env : Scope} (h : s.Covers env) {t u : Ty} (htu : t.Covers u) (x : String) :
    (s.set x t).Covers (env.set x u) := by
  intro y v hv
  by_cases hy : y = x
  · subst hy
    rw [get?_set_self, Option.some.injEq] at hv
    exact ⟨t, get?_set_self s y t, hv ▸ htu⟩
  · rw [get?_set_ne _ hy] at hv ⊢
    exact h y v hv

/-- A join covers what any of its branches covers. -/
theorem Covers.merge {b env : Scope} {branches : List Scope} (h : b.Covers env)
    (hb : b ∈ branches) (s : Scope) : (s.merge branches).Covers env := by
  intro x t ht
  obtain ⟨u, hu, hcov⟩ := h x t ht
  have hmem : u ∈ candidates branches x := List.mem_filterMap.mpr ⟨b, hb, hu⟩
  rw [get?_merge, if_neg (List.ne_nil_of_mem hmem)]
  exact ⟨_, rfl, (Ty.covers_unionOf hmem).trans hcov⟩

end Scope

end PhpTypes
