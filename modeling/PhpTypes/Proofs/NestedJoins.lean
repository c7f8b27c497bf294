import PhpTypes.Proofs.Registration
import PhpTypes.Proofs.UnionLaws

/-!
# Joins of joins

A union of which one candidate is itself a union, has the candidates of both. So a join with a scope
that is itself a join of some branches is the join with these branches, given that each of them has
kept all variables.
-/

namespace PhpTypes

section Names

variable {α : Type} [BEq α] [LawfulBEq α]

private theorem eraseDups_filter (p : α → Bool) (as : List α) :
    (as.filter p).eraseDups = as.eraseDups.filter p := by
  induction hn : as.length using Nat.strongRecOn generalizing as with
  | _ n ih =>
    cases as with
    | nil => rfl
    | cons a as =>
      subst hn
      -- The rest without its first element is shorter, so both filters can change places there.
      have hlt : (as.filter fun b => !b == a).length < (a :: as).length :=
        Nat.lt_succ_of_le (List.length_filter_le _ as)
      have hrest := ih _ hlt (as.filter fun b => !b == a) rfl
      rw [List.eraseDups_cons, List.filter_cons, List.filter_cons]
      by_cases hp : p a = true
      · rw [if_pos hp, if_pos hp, List.eraseDups_cons, ← hrest, List.filter_filter,
          List.filter_filter]
        simp only [Bool.and_comm]
      · rw [if_neg hp, if_neg hp, ← hrest, List.filter_filter]
        congr 1
        refine List.filter_congr fun b _ => ?_
        by_cases hb : b = a
        · subst hb
          simp [hp]
        · simp [hb]

private theorem eraseDups_eraseDups (as : List α) : as.eraseDups.eraseDups = as.eraseDups := by
  induction hn : as.length using Nat.strongRecOn generalizing as with
  | _ n ih =>
    cases as with
    | nil => rfl
    | cons a as =>
      subst hn
      have hlt : (as.filter fun b => !b == a).length < (a :: as).length :=
        Nat.lt_succ_of_le (List.length_filter_le _ as)
      have hrest := ih _ hlt (as.filter fun b => !b == a) rfl
      rw [List.eraseDups_cons, List.eraseDups_cons, ← eraseDups_filter, List.filter_filter]
      simp only [Bool.and_self, hrest]

/-- Only the first occurrences in the second part count. -/
theorem eraseDups_append_congr (as : List α) {bs cs : List α}
    (h : bs.eraseDups = cs.eraseDups) : (as ++ bs).eraseDups = (as ++ cs).eraseDups := by
  rw [List.eraseDups_append, List.eraseDups_append, List.removeAll, List.removeAll,
    eraseDups_filter, eraseDups_filter, h]

private theorem eraseDups_append_of_mem {as : List α} {a : α} (h : a ∈ as) (bs : List α) :
    (as ++ a :: bs).eraseDups = (as ++ bs).eraseDups := by
  rw [List.eraseDups_append, List.eraseDups_append]
  simp [List.removeAll, h]

private theorem eraseDups_append_of_isPrefix {as bs : List α} (h : as <+: bs) :
    (as ++ bs).eraseDups = bs.eraseDups := by
  obtain ⟨cs, rfl⟩ := h
  have hself : as.removeAll as = [] := by simp [List.removeAll]
  have hrest : (as ++ cs).removeAll as = cs.removeAll as := by
    rw [List.removeAll, List.filter_append, ← List.removeAll, hself, List.nil_append,
      List.removeAll]
  rw [List.eraseDups_append, hrest, List.eraseDups_append]

end Names

namespace Scope

theorem names_set (s : Scope) (x : String) (t : Ty) :
    (s.set x t).names = if x ∈ s.names then s.names else s.names ++ [x] :=
  Dict.keys_set s.bindings x t

private theorem eraseDups_names_foldl_set (types : String → Ty) (names : List String) (s : Scope) :
    (names.foldl (fun s name => s.set name (types name)) s).names.eraseDups =
      (s.names ++ names).eraseDups := by
  induction names generalizing s with
  | nil => simp
  | cons n ns ih =>
    rw [List.foldl_cons, ih, names_set]
    split
    · rename_i hmem
      rw [eraseDups_append_of_mem hmem]
    · rw [List.append_assoc, List.singleton_append]

private theorem candidates_singleton (s : Scope) (x : String) :
    candidates [s] x = (s.get? x).toList := by
  cases h : s.get? x <;> simp [candidates, h]

private theorem candidates_append (as bs : List Scope) (x : String) :
    candidates (as ++ bs) x = candidates as x ++ candidates bs x :=
  List.filterMap_append

/-- A scope that has all variables of another one, in the same places, and only types with
members. -/
structure Extends (s b : Scope) : Prop where
  names : s.names <+: b.names
  members : ∀ x t, b.get? x = some t → t.flatten ≠ []

private theorem flattenAll_candidates {s : Scope} {bs : List Scope} (h : ∀ b ∈ bs, s.Extends b)
    {x : String} (hne : candidates bs x ≠ []) : Ty.flattenAll (candidates bs x) ≠ [] := by
  obtain ⟨t, ht⟩ := List.exists_mem_of_ne_nil _ hne
  obtain ⟨b, hb, hget⟩ := List.mem_filterMap.mp ht
  obtain ⟨u, hu⟩ := List.exists_mem_of_ne_nil _ ((h b hb).members x t hget)
  rw [Ty.flattenAll_eq_flatMap]
  exact List.ne_nil_of_mem (List.mem_flatMap.mpr ⟨t, ht, hu⟩)

/-- In place of branches there may be their join. -/
theorem merge_append_merge {s : Scope} {bs : List Scope} (hne : bs ≠ [])
    (h : ∀ b ∈ bs, s.Extends b) (as : List Scope) :
    s.merge (as ++ [s.merge bs]) = s.merge (as ++ bs) := by
  obtain ⟨b, rest, rfl⟩ := List.exists_cons_of_ne_nil hne
  have hfirst := h b List.mem_cons_self
  have hnames : ((as ++ [s.merge (b :: rest)]).flatMap names).eraseDups =
      ((as ++ b :: rest).flatMap names).eraseDups := by
    rw [List.flatMap_append, List.flatMap_append]
    apply eraseDups_append_congr
    have hprefix : s.names <+: (b :: rest).flatMap names := by
      rw [List.flatMap_cons]
      exact hfirst.names.trans (List.prefix_append _ _)
    rw [List.flatMap_singleton, merge, eraseDups_names_foldl_set,
      eraseDups_append_congr s.names (eraseDups_eraseDups _), eraseDups_append_of_isPrefix hprefix]
  have htypes : ∀ x, Ty.unionOf (candidates (as ++ [s.merge (b :: rest)]) x) =
      Ty.unionOf (candidates (as ++ b :: rest) x) := by
    intro x
    rw [candidates_append, candidates_append]
    by_cases hx : candidates (b :: rest) x = []
    · -- A variable that no branch has is new to the scope too.
      have hb : b.get? x = none := by
        cases hget : b.get? x with
        | none => rfl
        | some t => simp [candidates, hget] at hx
      have hs : s.get? x = none := by
        by_contra hbound
        exact Dict.mem_keys_iff.mp (hfirst.names.subset (Dict.mem_keys_iff.mpr hbound)) hb
      have hm : candidates [s.merge (b :: rest)] x = [] := by
        rw [candidates_singleton, get?_merge, if_pos hx, hs, Option.toList_none]
      rw [hx, hm]
    · have hm : candidates [s.merge (b :: rest)] x = [Ty.unionOf (candidates (b :: rest) x)] := by
        rw [candidates_singleton, get?_merge, if_neg hx, Option.toList_some]
      simpa [hm] using Ty.unionOf_splice (candidates as x) [] (flattenAll_candidates h hx)
  simp only [merge] at hnames htypes ⊢
  rw [hnames]
  simp only [htypes]

end Scope

end PhpTypes
