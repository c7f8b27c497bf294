import PhpTypes.Proofs.Keys

/-!
# Lineages, level by level

The classes that a class gets members from lie in levels: the class, its relatives, their relatives,
and so on. The levels one after the other, each class only where it comes first, are the lineage. So
what is looked up along the lineage is found in the nearest level that has it, and there in the
first class that has it.
-/

namespace PhpTypes.Inference

open Source

theorem relatives_subset {index : Index} {c d : ClassLike} (h : d ∈ relatives index c) :
    d ∈ index.classes.values := by
  obtain ⟨name, -, hname⟩ := List.mem_filterMap.mp h
  exact Index.resolve_mem hname

private theorem lineageFrom_subset {index : Index} {remaining : List String}
    {queue : List ClassLike} {d : ClassLike} (hq : ∀ c ∈ queue, c ∈ index.classes.values)
    (h : d ∈ lineageFrom index remaining queue) : d ∈ index.classes.values := by
  fun_induction lineageFrom index remaining queue with
  | case1 => cases h
  | case2 remaining c rest hkey hlt ih =>
    rw [List.forall_mem_cons] at hq
    rcases List.mem_cons.mp h with rfl | h
    · exact hq.1
    · refine ih (List.forall_mem_append.mpr ⟨hq.2, fun e he => relatives_subset he⟩) h
  | case3 remaining c rest hkey ih =>
    rw [List.forall_mem_cons] at hq
    exact ih hq.2 h

theorem lineage_subset {index : Index} {c d : ClassLike} (hc : c ∈ index.classes.values)
    (h : d ∈ lineage index c) : d ∈ index.classes.values :=
  lineageFrom_subset (by simpa using hc) h

theorem lineage_head (index : Index) (c : ClassLike) : ∃ rest, lineage index c = c :: rest := by
  rw [lineage, lineageFrom, dif_pos (by simp)]
  exact ⟨_, rfl⟩

theorem findMethod_own {index : Index} {c : ClassLike} {name : String} {m : Method}
    (h : findIn c name = some m) : findMethod index c name = some (c, m) := by
  obtain ⟨rest, hrest⟩ := lineage_head index c
  simp [findMethod, hrest, h]

/-! Levels. -/

/-- The classes that are so many steps away from those of a queue, once for each way to them. -/
def level (index : Index) : Nat → List ClassLike → List ClassLike
  | 0, queue => queue
  | k + 1, queue => level index k (queue.flatMap (relatives index))

/-- The first so many levels, one after the other. -/
def levels (index : Index) : Nat → List ClassLike → List ClassLike
  | 0, _ => []
  | n + 1, queue => queue ++ levels index n (queue.flatMap (relatives index))

theorem level_succ (index : Index) (k : Nat) (queue : List ClassLike) :
    level index (k + 1) queue = (level index k queue).flatMap (relatives index) := by
  induction k generalizing queue with
  | zero => rfl
  | succ k ih => exact ih (queue.flatMap (relatives index))

theorem mem_levels_iff {index : Index} {n : Nat} {queue : List ClassLike} {c : ClassLike} :
    c ∈ levels index n queue ↔ ∃ k < n, c ∈ level index k queue := by
  induction n generalizing queue with
  | zero => simp [levels]
  | succ n ih =>
    rw [levels, List.mem_append, ih]
    constructor
    · rintro (h | ⟨k, hk, h⟩)
      · exact ⟨0, by omega, h⟩
      · exact ⟨k + 1, by omega, h⟩
    · rintro ⟨k, hk, h⟩
      cases k with
      | zero => exact .inl h
      | succ k => exact .inr ⟨k, by omega, h⟩

theorem level_subset {index : Index} {k : Nat} {queue : List ClassLike}
    (hq : ∀ c ∈ queue, c ∈ index.classes.values) :
    ∀ c ∈ level index k queue, c ∈ index.classes.values := by
  cases k with
  | zero => exact hq
  | succ k =>
    intro c hc
    rw [level_succ, List.mem_flatMap] at hc
    obtain ⟨d, -, hd⟩ := hc
    exact relatives_subset hd

/-! Classes where they come first. -/

/-- The classes of a list whose keys remain, each where it comes first. -/
def firsts (remaining : List String) : List ClassLike → List ClassLike
  | [] => []
  | c :: cs =>
    if classKey c ∈ remaining then c :: firsts (without (classKey c) remaining) cs
    else firsts remaining cs

/-- The keys that remain after some classes. -/
def remainingAfter (remaining : List String) (cs : List ClassLike) : List String :=
  remaining.filter fun k => k ∉ cs.map classKey

theorem mem_without_iff {key k : String} {keys : List String} :
    k ∈ without key keys ↔ k ∈ keys ∧ k ≠ key := by
  simp [without]

private theorem without_of_not_mem {key : String} {keys : List String} (h : key ∉ keys) :
    without key keys = keys := by
  rw [without, List.filter_eq_self]
  intro k hk
  have hne : k ≠ key := fun heq => h (heq ▸ hk)
  simpa using hne

theorem mem_remainingAfter_iff {k : String} {remaining : List String} {cs : List ClassLike} :
    k ∈ remainingAfter remaining cs ↔ k ∈ remaining ∧ ∀ c ∈ cs, classKey c ≠ k := by
  simp [remainingAfter]

private theorem not_mem_remainingAfter {remaining : List String} {cs : List ClassLike}
    {c : ClassLike}
    (h : classKey c ∉ remaining ∨ c ∈ cs) : classKey c ∉ remainingAfter remaining cs := by
  intro hmem
  obtain ⟨hremains, hne⟩ := mem_remainingAfter_iff.mp hmem
  rcases h with h | h
  · exact h hremains
  · exact hne c h rfl

@[simp] theorem remainingAfter_nil (remaining : List String) :
    remainingAfter remaining [] = remaining := by
  rw [remainingAfter, List.filter_eq_self]
  simp

private theorem remainingAfter_cons (remaining : List String) (c : ClassLike)
    (cs : List ClassLike) : remainingAfter remaining (c :: cs) =
      remainingAfter (without (classKey c) remaining) cs := by
  rw [remainingAfter, remainingAfter, without, List.filter_filter]
  apply List.filter_congr
  intro k _
  simp [Bool.and_comm]

theorem firsts_subset {remaining : List String} {cs : List ClassLike} {c : ClassLike}
    (h : c ∈ firsts remaining cs) : c ∈ cs ∧ classKey c ∈ remaining := by
  induction cs generalizing remaining with
  | nil => cases h
  | cons d cs ih =>
    rw [firsts] at h
    split at h
    · rename_i hd
      rcases List.mem_cons.mp h with rfl | h
      · exact ⟨List.mem_cons_self, hd⟩
      · exact ⟨List.mem_cons_of_mem _ (ih h).1, (mem_without_iff.mp (ih h).2).1⟩
    · exact ⟨List.mem_cons_of_mem _ (ih h).1, (ih h).2⟩

theorem exists_mem_firsts {remaining : List String} {cs : List ClassLike} {c : ClassLike}
    (hc : c ∈ cs) (hkey : classKey c ∈ remaining) :
    ∃ d ∈ firsts remaining cs, classKey d = classKey c := by
  induction cs generalizing remaining with
  | nil => cases hc
  | cons e cs ih =>
    rw [firsts]
    by_cases heq : classKey e = classKey c
    · exact ⟨e, by simp [heq, hkey], heq⟩
    · have hmem : c ∈ cs := by
        rcases List.mem_cons.mp hc with rfl | h
        · exact absurd rfl heq
        · exact h
      split
      · have hrest := mem_without_iff.mpr ⟨hkey, Ne.symm heq⟩
        obtain ⟨d, hd, hdkey⟩ := ih hmem hrest
        exact ⟨d, List.mem_cons_of_mem _ hd, hdkey⟩
      · exact ih hmem hkey

theorem firsts_append (remaining : List String) (as bs : List ClassLike) :
    firsts remaining (as ++ bs) =
      firsts remaining as ++ firsts (remainingAfter remaining as) bs := by
  induction as generalizing remaining with
  | nil => simp [firsts]
  | cons a as ih =>
    rw [remainingAfter_cons, List.cons_append, firsts, firsts]
    split
    · rw [ih, List.cons_append]
    · rename_i ha
      rw [ih, without_of_not_mem ha]

private theorem length_remainingAfter_lt {remaining : List String} {cs : List ClassLike}
    (h : firsts remaining cs ≠ []) :
    (remainingAfter remaining cs).length < remaining.length := by
  obtain ⟨c, hc⟩ := List.exists_mem_of_ne_nil _ h
  obtain ⟨hmem, hkey⟩ := firsts_subset hc
  refine List.length_filter_lt_length_iff_exists.mpr ⟨classKey c, hkey, ?_⟩
  simpa using ⟨c, hmem, rfl⟩

/-! A traversal goes through a whole level before the next. -/

private theorem lineageFrom_append (index : Index) (remaining : List String)
    (queue next : List ClassLike) : lineageFrom index remaining (queue ++ next) =
      firsts remaining queue ++ lineageFrom index (remainingAfter remaining queue)
        (next ++ (firsts remaining queue).flatMap (relatives index)) := by
  induction queue generalizing remaining next with
  | nil => simp [firsts]
  | cons c queue ih =>
    rw [List.cons_append, lineageFrom, remainingAfter_cons, firsts]
    split
    · rw [List.append_assoc, ih, List.cons_append, List.flatMap_cons, List.append_assoc]
    · rename_i hc
      rw [ih, without_of_not_mem hc]

/-! Repetitions in a level lead to nothing new. -/

/-- A list without some elements that are old, or stand before in the list. -/
inductive Thins : (ClassLike → Prop) → List ClassLike → List ClassLike → Prop where
  | nil {old : ClassLike → Prop} : Thins old [] []
  | keep {old : ClassLike → Prop} {c : ClassLike} {cs ds : List ClassLike}
      (h : Thins (fun x => old x ∨ x = c) cs ds) : Thins old (c :: cs) (c :: ds)
  | drop {old : ClassLike → Prop} {c : ClassLike} {cs ds : List ClassLike}
      (hc : old c) (h : Thins old cs ds) : Thins old (c :: cs) ds

namespace Thins

variable {old : ClassLike → Prop} {cs ds : List ClassLike}

theorem mono (h : Thins old cs ds) {new : ClassLike → Prop} (hnew : ∀ x, old x → new x) :
    Thins new cs ds := by
  induction h generalizing new with
  | nil => exact .nil
  | keep _ ih => exact .keep (ih fun x hx => hx.imp_left (hnew x))
  | drop hc _ ih => exact .drop (hnew _ hc) (ih hnew)

theorem keepAll {as : List ClassLike} (h : Thins (fun x => old x ∨ x ∈ as) cs ds) :
    Thins old (as ++ cs) (as ++ ds) := by
  induction as generalizing old with
  | nil => exact h.mono (by simp)
  | cons a as ih =>
    apply Thins.keep
    apply ih
    apply h.mono
    intro x hx
    simpa [or_assoc] using hx

theorem dropAll {as : List ClassLike} (has : ∀ a ∈ as, old a) (h : Thins old cs ds) :
    Thins old (as ++ cs) ds := by
  induction as with
  | nil => exact h
  | cons a as ih =>
    rw [List.forall_mem_cons] at has
    exact .drop has.1 (ih has.2)

theorem flatMap (h : Thins old cs ds) {f : ClassLike → List ClassLike} {new : ClassLike → Prop}
    (hnew : ∀ x, old x → ∀ y ∈ f x, new y) : Thins new (cs.flatMap f) (ds.flatMap f) := by
  induction h generalizing new with
  | nil => exact .nil
  | @keep old c cs ds _ ih =>
    rw [List.flatMap_cons, List.flatMap_cons]
    apply Thins.keepAll
    apply ih
    rintro x (hx | rfl) y hy
    · exact .inl (hnew x hx y hy)
    · exact .inr hy
  | @drop old c cs ds hc _ ih =>
    rw [List.flatMap_cons]
    exact .dropAll (hnew c hc) (ih hnew)

theorem firsts_eq (h : Thins old cs ds) {remaining : List String}
    (hold : ∀ x, old x → classKey x ∉ remaining) :
    firsts remaining cs = firsts remaining ds ∧
      remainingAfter remaining cs = remainingAfter remaining ds := by
  induction h generalizing remaining with
  | nil => exact ⟨rfl, rfl⟩
  | @keep old c cs ds _ ih =>
    have hrest : ∀ x, old x ∨ x = c → classKey x ∉ without (classKey c) remaining := by
      rintro x (hx | rfl) hmem
      · exact hold x hx (mem_without_iff.mp hmem).1
      · exact (mem_without_iff.mp hmem).2 rfl
    obtain ⟨hfirsts, hafter⟩ := ih hrest
    rw [remainingAfter_cons, remainingAfter_cons, hafter, firsts, firsts]
    by_cases hc : classKey c ∈ remaining
    · simp [hc, hfirsts]
    · rw [without_of_not_mem hc] at hfirsts
      simp [hc, hfirsts]
  | @drop old c cs ds hc _ ih =>
    obtain ⟨hfirsts, hafter⟩ := ih hold
    have hkey := hold c hc
    rw [remainingAfter_cons, without_of_not_mem hkey, firsts, if_neg hkey]
    exact ⟨hfirsts, hafter⟩

/-- Levels from a thinner queue have the same classes in the same order, if what old classes lead to
is old or in the queue. -/
theorem levels_eq {index : Index} (h : Thins old cs ds) {remaining : List String}
    (hold : ∀ x, old x → classKey x ∉ remaining)
    (hclosed : ∀ x, old x → ∀ y ∈ relatives index x, old y ∨ y ∈ cs) (n : Nat) :
    firsts remaining (levels index n cs) = firsts remaining (levels index n ds) := by
  induction n generalizing old cs ds remaining with
  | zero => rfl
  | succ n ih =>
    obtain ⟨hfirsts, hafter⟩ := h.firsts_eq hold
    rw [levels, levels, firsts_append, firsts_append, hfirsts, ← hafter]
    congr 1
    -- After this level its classes are old too.
    have hnext : Thins (fun x => old x ∨ x ∈ cs) _ _ := h.flatMap hclosed
    apply ih hnext
    · exact fun x hx => not_mem_remainingAfter (hx.imp_left (hold x))
    · rintro x (hx | hx) y hy
      · exact .inl (hclosed x hx y hy)
      · exact .inr (List.mem_flatMap.mpr ⟨x, hx, hy⟩)

end Thins

private theorem thins_firsts {index : Index} {cs : List ClassLike}
    (hcs : ∀ c ∈ cs, c ∈ index.classes.values) (remaining : List String) :
    Thins (fun x => x ∈ index.classes.values ∧ classKey x ∉ remaining) cs
      (firsts remaining cs) := by
  induction cs generalizing remaining with
  | nil => exact .nil
  | cons c cs ih =>
    rw [List.forall_mem_cons] at hcs
    rw [firsts]
    split
    · apply Thins.keep
      apply (ih hcs.2 (without (classKey c) remaining)).mono
      rintro x ⟨hx, hkey⟩
      by_cases heq : classKey x = classKey c
      · exact .inr (Index.class_eq hx hcs.1 heq)
      · exact .inl ⟨hx, fun hmem => hkey (mem_without_iff.mpr ⟨hmem, heq⟩)⟩
    · rename_i hc
      exact .drop ⟨hcs.1, hc⟩ (ih hcs.2 remaining)

/-- What the classes lead to whose keys are used up, is used up as well or in the queue. -/
def Closed (index : Index) (remaining : List String) (queue : List ClassLike) : Prop :=
  ∀ c ∈ index.classes.values, classKey c ∉ remaining →
    ∀ d ∈ relatives index c, classKey d ∉ remaining ∨ d ∈ queue

theorem Closed.next {index : Index} {remaining : List String} {queue : List ClassLike}
    (h : Closed index remaining queue) (hq : ∀ c ∈ queue, c ∈ index.classes.values) :
    Closed index (remainingAfter remaining queue)
      ((firsts remaining queue).flatMap (relatives index)) := by
  intro c hc hkey d hd
  by_cases hrem : classKey c ∈ remaining
  · -- The class is one of the queue, where it comes first.
    right
    have hmeet : ∃ b ∈ queue, classKey b = classKey c := by
      simpa [mem_remainingAfter_iff, hrem] using hkey
    obtain ⟨b, hb, hbkey⟩ := hmeet
    obtain rfl := Index.class_eq (hq b hb) hc hbkey
    obtain ⟨a, ha, hakey⟩ := exists_mem_firsts hb hrem
    obtain rfl := Index.class_eq (hq a (firsts_subset ha).1) hc hakey
    exact List.mem_flatMap.mpr ⟨a, ha, hd⟩
  · exact .inl (not_mem_remainingAfter (h c hc hrem d hd))

/-- The levels after a queue, and those after the same queue without repetitions. -/
theorem Closed.levels_next {index : Index} {remaining : List String} {queue : List ClassLike}
    (h : Closed index remaining queue) (hq : ∀ c ∈ queue, c ∈ index.classes.values) (n : Nat) :
    firsts (remainingAfter remaining queue)
        (levels index n (queue.flatMap (relatives index))) =
      firsts (remainingAfter remaining queue)
        (levels index n ((firsts remaining queue).flatMap (relatives index))) := by
  have hthin : Thins
      (fun x => x ∈ index.classes.values ∧ classKey x ∉ remainingAfter remaining queue)
      (queue.flatMap (relatives index)) ((firsts remaining queue).flatMap (relatives index)) := by
    apply (thins_firsts hq remaining).flatMap
    rintro c ⟨hc, hkey⟩ d hd
    exact ⟨relatives_subset hd, not_mem_remainingAfter (h c hc hkey d hd)⟩
  apply hthin.levels_eq (fun x hx => hx.2)
  rintro c ⟨hc, hkey⟩ d hd
  rcases h.next hq c hc hkey d hd with hnot | hqueue
  · exact .inl ⟨relatives_subset hd, hnot⟩
  · obtain ⟨b, hb, hbd⟩ := List.mem_flatMap.mp hqueue
    exact .inr (List.mem_flatMap.mpr ⟨b, (firsts_subset hb).1, hbd⟩)

private theorem lineageFrom_eq_firsts {index : Index} {remaining : List String}
    {queue : List ClassLike}
    {n : Nat} (hq : ∀ c ∈ queue, c ∈ index.classes.values) (hclosed : Closed index remaining queue)
    (hn : remaining.length < n ∨ queue = []) :
    lineageFrom index remaining queue = firsts remaining (levels index n queue) := by
  induction n generalizing remaining queue with
  | zero =>
    obtain rfl : queue = [] := by simpa using hn
    simp [lineageFrom, levels, firsts]
  | succ n ih =>
    have hlevel := lineageFrom_append index remaining queue []
    rw [List.append_nil, List.nil_append] at hlevel
    have hnext : ∀ c ∈ (firsts remaining queue).flatMap (relatives index),
        c ∈ index.classes.values := by
      intro c hc
      obtain ⟨d, -, hd⟩ := List.mem_flatMap.mp hc
      exact relatives_subset hd
    have hshrinks : (remainingAfter remaining queue).length < n ∨
        (firsts remaining queue).flatMap (relatives index) = [] := by
      by_cases hfirsts : firsts remaining queue = []
      · exact .inr (by rw [hfirsts]; rfl)
      · left
        have hlt := length_remainingAfter_lt hfirsts
        rcases hn with hn | rfl
        · omega
        · exact absurd rfl hfirsts
    rw [hlevel, ih hnext (hclosed.next hq) hshrinks, ← hclosed.levels_next hq, levels,
      firsts_append]

/-- The lineage has the classes of all levels in order, each where it comes first. -/
theorem lineage_eq_firsts {index : Index} {c : ClassLike} (hc : c ∈ index.classes.values) {n : Nat}
    (hn : index.classes.values.length + 1 < n) :
    lineage index c =
      firsts ((c :: index.classes.values).map classKey) (levels index n [c]) := by
  apply lineageFrom_eq_firsts
  · simpa using hc
  · intro d hd hkey
    exact absurd (List.mem_map_of_mem (List.mem_cons_of_mem _ hd)) hkey
  · left
    simpa using hn

theorem mem_lineage_iff {index : Index} {c d : ClassLike} (hc : c ∈ index.classes.values) :
    d ∈ lineage index c ↔ ∃ k, d ∈ level index k [c] := by
  have hlevel : ∀ k, ∀ e ∈ level index k [c], e ∈ index.classes.values :=
    fun k => level_subset (by simpa using hc)
  constructor
  · intro hd
    rw [lineage_eq_firsts hc (Nat.lt_succ_self _)] at hd
    obtain ⟨k, -, hk⟩ := mem_levels_iff.mp (firsts_subset hd).1
    exact ⟨k, hk⟩
  · rintro ⟨k, hk⟩
    have hmem := hlevel k d hk
    have hn : index.classes.values.length + 1 < k + (index.classes.values.length + 2) := by omega
    have hlevels : d ∈ levels index (k + (index.classes.values.length + 2)) [c] :=
      mem_levels_iff.mpr ⟨k, by omega, hk⟩
    have hkey : classKey d ∈ (c :: index.classes.values).map classKey :=
      List.mem_map_of_mem (List.mem_cons_of_mem _ hmem)
    obtain ⟨e, he, heq⟩ := exists_mem_firsts hlevels hkey
    rw [← lineage_eq_firsts hc hn] at he
    rwa [Index.class_eq (lineage_subset hc he) hmem heq] at he

private theorem findSome?_firsts {α : Type} {index : Index} {f : ClassLike → Option α}
    {cs : List ClassLike} {remaining : List String} (hcs : ∀ c ∈ cs, c ∈ index.classes.values)
    (hnone : ∀ c ∈ cs, classKey c ∉ remaining → f c = none) :
    (firsts remaining cs).findSome? f = cs.findSome? f := by
  induction cs generalizing remaining with
  | nil => rfl
  | cons c cs ih =>
    rw [List.forall_mem_cons] at hcs hnone
    by_cases hc : classKey c ∈ remaining
    · rw [firsts, if_pos hc, List.findSome?_cons, List.findSome?_cons]
      cases hf : f c with
      | some a => rfl
      | none =>
        apply ih hcs.2
        intro d hd hkey
        by_cases heq : classKey d = classKey c
        · rw [Index.class_eq (hcs.2 d hd) hcs.1 heq, hf]
        · exact hnone.2 d hd fun hmem => hkey (mem_without_iff.mpr ⟨hmem, heq⟩)
    · rw [firsts, if_neg hc, List.findSome?_cons, hnone.1 hc]
      exact ih hcs.2 hnone.2

/-- What is looked up along the lineage is found where it comes first in the levels. -/
theorem findSome?_lineage {α : Type} {index : Index} {c : ClassLike}
    (hc : c ∈ index.classes.values) {n : Nat} (hn : index.classes.values.length + 1 < n)
    (f : ClassLike → Option α) :
    (lineage index c).findSome? f = (levels index n [c]).findSome? f := by
  have hlevels : ∀ d ∈ levels index n [c], d ∈ index.classes.values := by
    intro d hd
    obtain ⟨k, -, hk⟩ := mem_levels_iff.mp hd
    exact level_subset (by simpa using hc) d hk
  rw [lineage_eq_firsts hc hn]
  apply findSome?_firsts hlevels
  intro d hd hkey
  exact absurd (List.mem_map_of_mem (List.mem_cons_of_mem _ (hlevels d hd))) hkey

end PhpTypes.Inference
