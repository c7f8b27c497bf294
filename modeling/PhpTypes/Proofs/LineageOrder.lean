import Mathlib.Logic.Relation
import Mathlib.Order.Lattice.Nat
import PhpTypes.Proofs.MethodLookup

/-!
# The order of a lineage

A lineage is what is found by a queue with a memory of the keys that were met: it has every class
that can be reached over the names of traits, parents and interfaces, once and nothing else, nearest
first. Of the classes that are met first through one class, its traits come before its parent and
the parent before its interfaces.
-/

namespace PhpTypes.Inference

open Source

/-- A clause of a class has the name of another class. -/
def Names (index : Index) (b d : ClassLike) : Prop :=
  ∃ name, (name ∈ b.traits ∨ name ∈ b.parent ∨ name ∈ b.interfaces) ∧
    index.resolve name = some d

/-- A way of so many steps from class to class over the names in clauses. -/
inductive Way (index : Index) (c : ClassLike) : Nat → ClassLike → Prop where
  | start : Way index c 0 c
  | step {k : Nat} {b d : ClassLike} (h : Way index c k b) (hbd : Names index b d) :
      Way index c (k + 1) d

/-- The length of the shortest way from a class to another one. -/
noncomputable def distance (index : Index) (c d : ClassLike) : Nat := sInf {k | Way index c k d}

/-- The loop over a queue, with the keys that were met and the classes that it finds: a class whose
key was met is passed over, and the relatives of any other go to the end of the queue. -/
inductive Visits (index : Index) : List String → List ClassLike → List ClassLike → Prop where
  | done {met : List String} : Visits index met [] []
  | again {met : List String} {c : ClassLike} {queue found : List ClassLike}
      (hc : classKey c ∈ met) (h : Visits index met queue found) :
      Visits index met (c :: queue) found
  | first {met : List String} {c : ClassLike} {queue found : List ClassLike}
      (hc : classKey c ∉ met)
      (h : Visits index (classKey c :: met) (queue ++ relatives index c) found) :
      Visits index met (c :: queue) (c :: found)

/-- One class is the first of a lineage that names another one, which is not where the lineage
starts. -/
structure DiscoveredFrom (index : Index) (c b d : ClassLike) : Prop where
  mem : b ∈ lineage index c
  names : Names index b d
  first : ∀ a, [a, b].Sublist (lineage index c) → ¬Names index a d
  ne : d ≠ c

/-! Names and ways. -/

private theorem mem_relatives_iff {index : Index} {b d : ClassLike} :
    d ∈ relatives index b ↔ Names index b d := by
  simp [relatives, Names, or_and_right, exists_or]

private theorem mem_level_iff {index : Index} {c d : ClassLike} {k : Nat} :
    d ∈ level index k [c] ↔ Way index c k d := by
  constructor
  · intro hd
    induction k generalizing d with
    | zero =>
      obtain rfl : d = c := by simpa [level] using hd
      exact .start
    | succ k ih =>
      rw [level_succ, List.mem_flatMap] at hd
      obtain ⟨b, hb, hbd⟩ := hd
      exact .step (ih hb) (mem_relatives_iff.mp hbd)
  · intro hway
    induction hway with
    | start => simp [level]
    | step _ hbd ih =>
      rw [level_succ, List.mem_flatMap]
      exact ⟨_, ih, mem_relatives_iff.mpr hbd⟩

private theorem exists_way_iff {index : Index} {c d : ClassLike} :
    (∃ k, Way index c k d) ↔ Relation.ReflTransGen (Names index) c d := by
  constructor
  · rintro ⟨k, hway⟩
    induction hway with
    | start => exact .refl
    | step _ hbd ih => exact ih.tail hbd
  · intro hreach
    induction hreach with
    | refl => exact ⟨0, .start⟩
    | tail _ hbd ih =>
      obtain ⟨k, hway⟩ := ih
      exact ⟨k + 1, hway.step hbd⟩

private theorem way_distance {index : Index} {c d : ClassLike} {k : Nat} (h : Way index c k d) :
    Way index c (distance index c d) d :=
  Nat.sInf_mem (s := {k | Way index c k d}) ⟨k, h⟩

private theorem distance_le {index : Index} {c d : ClassLike} {k : Nat} (h : Way index c k d) :
    distance index c d ≤ k :=
  Nat.sInf_le h

/-! The loop. -/

theorem Visits.unique {index : Index} {met : List String} {queue found found' : List ClassLike}
    (h : Visits index met queue found) (h' : Visits index met queue found') : found = found' := by
  induction h generalizing found' with
  | done =>
    cases h'
    rfl
  | again hc _ ih =>
    cases h' with
    | again _ h' => exact ih h'
    | first hc' _ => exact absurd hc hc'
  | first hc _ ih =>
    cases h' with
    | again hc' _ => exact absurd hc' hc
    | first _ h' => rw [ih h']

/-- The keys that remain are those that were not met. -/
theorem visits_lineageFrom {index : Index} {met remaining : List String} {queue : List ClassLike}
    (hq : ∀ c ∈ queue, c ∈ index.classes.values)
    (hmet : ∀ c ∈ index.classes.values, classKey c ∈ remaining ↔ classKey c ∉ met) :
    Visits index met queue (lineageFrom index remaining queue) := by
  fun_induction lineageFrom index remaining queue generalizing met with
  | case1 => exact .done
  | case2 remaining c rest hkey hlt ih =>
    rw [List.forall_mem_cons] at hq
    refine .first ((hmet c hq.1).mp hkey) (ih ?_ fun d hd => ?_)
    · exact List.forall_mem_append.mpr ⟨hq.2, fun d hd => relatives_subset hd⟩
    · rw [mem_without_iff, hmet d hd, List.mem_cons, not_or, and_comm]
  | case3 remaining c rest hkey ih =>
    rw [List.forall_mem_cons] at hq
    exact .again (by_contra fun hc => hkey ((hmet c hq.1).mpr hc)) (ih hq.2 hmet)

theorem visits_lineage {index : Index} {c : ClassLike} (hc : c ∈ index.classes.values) :
    Visits index [] [c] (lineage index c) := by
  refine visits_lineageFrom (by simpa using hc) fun d hd => ?_
  simp only [List.not_mem_nil, not_false_eq_true, iff_true]
  exact List.mem_map_of_mem (List.mem_cons_of_mem c hd)

/-! Classes where they come first, in their order. -/

private theorem nodup_keys_firsts (remaining : List String) (cs : List ClassLike) :
    ((firsts remaining cs).map classKey).Nodup := by
  induction cs generalizing remaining with
  | nil => exact List.nodup_nil
  | cons c cs ih =>
    rw [firsts]
    split
    · rw [List.map_cons, List.nodup_cons]
      refine ⟨fun hmem => ?_, ih _⟩
      obtain ⟨d, hd, hkey⟩ := List.mem_map.mp hmem
      exact (mem_without_iff.mp (firsts_subset hd).2).2 hkey
    · exact ih remaining

/-- A class comes before another one that is only in the second part of a list. -/
theorem sublist_firsts {index : Index} {remaining : List String} {as bs : List ClassLike}
    {d e : ClassLike} (hall : ∀ c ∈ as ++ bs, c ∈ index.classes.values)
    (hremain : ∀ c ∈ index.classes.values, classKey c ∈ remaining) (hd : d ∈ as) (he : e ∈ bs)
    (hnot : e ∉ as) : [d, e].Sublist (firsts remaining (as ++ bs)) := by
  rw [List.forall_mem_append] at hall
  have hdmem := hall.1 d hd
  have hemem := hall.2 e he
  have hfirst : d ∈ firsts remaining as := by
    obtain ⟨d', hd', hkey⟩ := exists_mem_firsts hd (hremain d hdmem)
    rwa [Index.class_eq (hall.1 d' (firsts_subset hd').1) hdmem hkey] at hd'
  have hnew : classKey e ∈ remainingAfter remaining as := by
    refine mem_remainingAfter_iff.mpr ⟨hremain e hemem, fun a ha hkey => hnot ?_⟩
    rwa [← Index.class_eq (hall.1 a ha) hemem hkey]
  have hsecond : e ∈ firsts (remainingAfter remaining as) bs := by
    obtain ⟨e', he', hkey⟩ := exists_mem_firsts he hnew
    rwa [Index.class_eq (hall.2 e' (firsts_subset he').1) hemem hkey] at he'
  rw [firsts_append]
  exact (List.singleton_sublist.mpr hfirst).append (List.singleton_sublist.mpr hsecond)

/-- Two elements of a list without repetitions have one order. -/
theorem not_sublist_swap {α : Type} {l : List α} (hl : l.Nodup) {a b : α}
    (hab : [a, b].Sublist l) : ¬[b, a].Sublist l := by
  have hne : a ≠ b := by simpa using hl.sublist hab
  intro hba
  induction l with
  | nil => cases hab
  | cons x l ih =>
    rw [List.nodup_cons] at hl
    cases hab with
    | cons _ hab =>
      cases hba with
      | cons _ hba => exact ih hl.2 hab hba
      | cons_cons _ _ => exact hl.1 (hab.subset (by simp))
    | cons_cons _ hb =>
      cases hba with
      | cons _ hba => exact hl.1 (hba.subset (by simp))
      | cons_cons _ _ => exact hne rfl

/-- All that ever stands in the queue: what it starts with, and what the classes found lead to. -/
theorem lineageFrom_eq_firsts_queued (index : Index) (remaining : List String)
    (queue : List ClassLike) :
    lineageFrom index remaining queue = firsts remaining
      (queue ++ (lineageFrom index remaining queue).flatMap (relatives index)) := by
  fun_induction lineageFrom index remaining queue with
  | case1 => rfl
  | case2 remaining c rest hkey hlt ih =>
    rw [List.cons_append, firsts, if_pos hkey, List.flatMap_cons, ← List.append_assoc, ← ih]
  | case3 remaining c rest hkey ih => rw [List.cons_append, firsts, if_neg hkey, ← ih]

private theorem levels_add (index : Index) (k n : Nat) (queue : List ClassLike) :
    levels index (k + n) queue = levels index k queue ++ levels index n (level index k queue) := by
  induction k generalizing queue with
  | zero => simp [levels, level]
  | succ k ih => rw [Nat.succ_add, levels, ih, levels, List.append_assoc, level]

section

variable {index : Index} {c : ClassLike} (hc : c ∈ index.classes.values)

include hc

private theorem lineage_keys_nodup : ((lineage index c).map classKey).Nodup := by
  rw [lineage_eq_firsts hc (Nat.lt_succ_self _)]
  exact nodup_keys_firsts _ _

/-- A class that is nearer stands before. -/
theorem sublist_lineage_of_distance_lt {d e : ClassLike} (hd : d ∈ lineage index c)
    (he : e ∈ lineage index c) (hlt : distance index c d < distance index c e) :
    [d, e].Sublist (lineage index c) := by
  obtain ⟨k, hk⟩ := (mem_lineage_iff hc).mp hd
  obtain ⟨l, hl⟩ := (mem_lineage_iff hc).mp he
  have hdway := way_distance (mem_level_iff.mp hk)
  have heway := way_distance (mem_level_iff.mp hl)
  -- The levels up to that of the nearer class, and all levels after them.
  let near := distance index c d + 1
  let far := distance index c e + (index.classes.values.length + 2)
  have hlevels := levels_add index near far [c]
  have hall : ∀ b ∈ levels index near [c] ++ levels index far (level index near [c]),
      b ∈ index.classes.values := by
    intro b hb
    rw [← hlevels, mem_levels_iff] at hb
    obtain ⟨j, -, hj⟩ := hb
    exact level_subset (by simpa using hc) b hj
  have hnear : d ∈ levels index near [c] :=
    mem_levels_iff.mpr ⟨distance index c d, Nat.lt_succ_self _, mem_level_iff.mpr hdway⟩
  have hnot : e ∉ levels index near [c] := by
    intro hmem
    obtain ⟨j, hj, hej⟩ := mem_levels_iff.mp hmem
    have hle := distance_le (mem_level_iff.mp hej)
    omega
  have hfar : e ∈ levels index far (level index near [c]) := by
    have hmem : e ∈ levels index (near + far) [c] :=
      mem_levels_iff.mpr ⟨distance index c e, by omega, mem_level_iff.mpr heway⟩
    rw [hlevels, List.mem_append] at hmem
    exact hmem.resolve_left hnot
  rw [lineage_eq_firsts hc (n := near + far) (by omega), hlevels]
  exact sublist_firsts hall (fun b hb => List.mem_map_of_mem (List.mem_cons_of_mem c hb)) hnear
    hfar hnot

private theorem lineage_pairwise_distance :
    (lineage index c).Pairwise fun d e => distance index c d ≤ distance index c e := by
  rw [List.pairwise_iff_forall_sublist]
  intro d e hsub
  by_contra hlt
  have hswap := sublist_lineage_of_distance_lt hc (hsub.subset (by simp)) (hsub.subset (by simp))
    (Nat.lt_of_not_le hlt)
  exact not_sublist_swap (lineage_keys_nodup hc).of_map hsub hswap

/-- Of the classes that a class leads to, those that it names first come before what is met first
through it. -/
theorem sublist_lineage_of_named {b d e : ClassLike} {as bs : List ClassLike}
    (hnamed : relatives index b = as ++ bs) (hd : d ∈ as) (he : DiscoveredFrom index c b e)
    (hnot : e ∉ as) : [d, e].Sublist (lineage index c) := by
  obtain ⟨before, after, hsplit⟩ := List.append_of_mem he.mem
  have hqueued : lineage index c = firsts ((c :: index.classes.values).map classKey)
      ((c :: before.flatMap (relatives index) ++ as) ++
        (bs ++ after.flatMap (relatives index))) := by
    have hself := lineageFrom_eq_firsts_queued index ((c :: index.classes.values).map classKey) [c]
    rw [← lineage] at hself
    rw [hself]
    congr 1
    rw [hsplit]
    simp [hnamed]
  have hall : ∀ a ∈ (c :: before.flatMap (relatives index) ++ as) ++
      (bs ++ after.flatMap (relatives index)), a ∈ index.classes.values := by
    have hrelative : ∀ a ∈ as ++ bs, a ∈ index.classes.values := by
      rw [← hnamed]
      exact fun a ha => relatives_subset ha
    have hlater : ∀ cs : List ClassLike, ∀ a ∈ cs.flatMap (relatives index),
        a ∈ index.classes.values := by
      intro cs a ha
      obtain ⟨x, -, hx⟩ := List.mem_flatMap.mp ha
      exact relatives_subset hx
    rw [List.forall_mem_append] at hrelative
    simp only [List.forall_mem_append, List.forall_mem_cons]
    exact ⟨⟨⟨hc, hlater before⟩, hrelative.1⟩, hrelative.2, hlater after⟩
  have hmem : e ∈ as ++ bs := by
    rw [← hnamed]
    exact mem_relatives_iff.mpr he.names
  have hsecond : e ∈ bs ++ after.flatMap (relatives index) :=
    List.mem_append_left _ ((List.mem_append.mp hmem).resolve_left hnot)
  have hnew : e ∉ c :: before.flatMap (relatives index) ++ as := by
    intro h
    rcases List.mem_append.mp h with h | h
    · rcases List.mem_cons.mp h with rfl | h
      · exact he.ne rfl
      · obtain ⟨a, ha, hae⟩ := List.mem_flatMap.mp h
        refine he.first a ?_ (mem_relatives_iff.mp hae)
        rw [hsplit]
        exact (List.singleton_sublist.mpr ha).append (List.singleton_sublist.mpr List.mem_cons_self)
    · exact hnot h
  rw [hqueued]
  exact sublist_firsts hall (fun a ha => List.mem_map_of_mem (List.mem_cons_of_mem c ha))
    (List.mem_append_right _ hd) hsecond hnew

/-- What a class names itself is met first through it. -/
theorem discoveredFrom_start {d : ClassLike} (h : Names index c d) (hne : d ≠ c) :
    DiscoveredFrom index c c d := by
  obtain ⟨rest, hrest⟩ := lineage_head index c
  have hnodup := (lineage_keys_nodup hc).of_map
  rw [hrest, List.nodup_cons] at hnodup
  refine ⟨by simp [hrest], h, fun a ha => ?_, hne⟩
  rw [hrest] at ha
  cases ha with
  | cons _ ha => exact absurd (ha.subset (by simp)) hnodup.1
  | cons_cons _ ha => exact absurd (ha.subset (by simp)) hnodup.1

end

/-- The loop ends for every class of an index, also for cyclic clauses and for names that no class
has, and what it finds is the lineage. That starts with the class itself, has every class that can
be reached over names, once up to case and nothing else, and goes from near to far. Of the classes
that are met first through one class, traits come before the parent and what is neither trait nor
parent comes after it. -/
theorem lineage_breadthFirst {index : Index} {c : ClassLike} (hc : c ∈ index.classes.values) :
    (∀ found, Visits index [] [c] found ↔ found = lineage index c) ∧
    (lineage index c).head? = some c ∧
    (∀ d, d ∈ lineage index c ↔ Relation.ReflTransGen (Names index) c d) ∧
    ((lineage index c).map fun d => Text.lower d.fullName).Nodup ∧
    (lineage index c).Pairwise (fun d e => distance index c d ≤ distance index c e) ∧
    ∀ b d e, DiscoveredFrom index c b d → DiscoveredFrom index c b e →
      (d ∈ named index b.traits → e ∉ named index b.traits →
        [d, e].Sublist (lineage index c)) ∧
      (d ∈ parentOf index b → e ∉ named index b.traits → e ∉ parentOf index b →
        [d, e].Sublist (lineage index c)) := by
  refine ⟨fun found => ⟨fun h => h.unique (visits_lineage hc), ?_⟩, ?_, fun d => ?_,
    lineage_keys_nodup hc, lineage_pairwise_distance hc, fun b d e hd he => ⟨?_, ?_⟩⟩
  · rintro rfl
    exact visits_lineage hc
  · obtain ⟨rest, hrest⟩ := lineage_head index c
    rw [hrest, List.head?_cons]
  · rw [mem_lineage_iff hc, ← exists_way_iff]
    exact exists_congr fun k => mem_level_iff
  · intro htrait hnot
    exact sublist_lineage_of_named hc (relatives_eq index b) htrait he hnot
  · intro hparent htrait hnot
    have hclauses : relatives index b =
        (named index b.traits ++ (parentOf index b).toList) ++ named index b.interfaces := by
      rw [relatives_eq, List.append_assoc]
    refine sublist_lineage_of_named hc hclauses ?_ he ?_
    · exact List.mem_append_right _ (Option.mem_toList.mpr hparent)
    · simpa [List.mem_append] using ⟨htrait, hnot⟩

def thread : ClassLike := ClassLike.bare ⟨1, 1⟩ none .trait "Thread"

/-- An interface that extends itself. -/
def knot : ClassLike :=
  { ClassLike.bare ⟨2, 1⟩ none .interface "Knot" with interfaces := ["Knot"] }

/-- Its parent leads back to it, and no class has the name of its first interface. -/
def loom : ClassLike :=
  { ClassLike.bare ⟨3, 1⟩ none .ordinary "Loom" with
    parent := some "Reel", interfaces := ["Missing", "KNOT"], traits := ["Thread"] }

def reel : ClassLike :=
  { ClassLike.bare ⟨4, 1⟩ none .ordinary "Reel" with parent := some "loom", traits := ["Thread"] }

def loomIndex : Index := [thread, knot, loom, reel].foldl Index.addClass .empty

theorem loom_breadthFirst :
    loom ∈ loomIndex.classes.values ∧ lineage loomIndex loom = [loom, thread, reel, knot] ∧
    DiscoveredFrom loomIndex loom loom reel ∧ DiscoveredFrom loomIndex loom loom knot ∧
    [reel, knot].Sublist (lineage loomIndex loom) := by
  have hmem : loom ∈ loomIndex.classes.values := List.mem_of_getElem? (i := 2) rfl
  obtain ⟨hvisits, -, -, -, -, horder⟩ := lineage_breadthFirst hmem
  have hloom : relatives loomIndex loom = [thread, reel, knot] := rfl
  have hreel : relatives loomIndex reel = [thread, loom] := rfl
  have hknot : relatives loomIndex knot = [knot] := rfl
  have hfound : Visits loomIndex [] [loom] [loom, thread, reel, knot] := by
    refine .first (by decide) ?_
    rw [hloom]
    refine .first (by decide) (.first (by decide) ?_)
    rw [hreel]
    refine .first (by decide) ?_
    rw [hknot]
    exact .again (by decide) (.again (by decide) (.again (by decide) .done))
  have hname : ∀ {a b : ClassLike}, a.name ≠ b.name → a ≠ b := fun h heq => h (heq ▸ rfl)
  have hfrom : ∀ d ∈ relatives loomIndex loom, d.name ≠ loom.name →
      DiscoveredFrom loomIndex loom loom d :=
    fun d hd h => discoveredFrom_start hmem (mem_relatives_iff.mp hd) (hname h)
  have hreelFrom := hfrom reel (by simp [hloom]) (by decide)
  have hknotFrom := hfrom knot (by simp [hloom]) (by decide)
  have hparent : parentOf loomIndex loom = some reel := rfl
  have htraits : named loomIndex loom.traits = [thread] := rfl
  refine ⟨hmem, ((hvisits _).mp hfound).symm, hreelFrom, hknotFrom,
    (horder loom reel knot hreelFrom hknotFrom).2 hparent ?_ ?_⟩
  · rw [htraits, List.mem_singleton]
    exact hname (by decide)
  · rw [hparent, Option.mem_some_iff]
    exact hname (by decide)

end PhpTypes.Inference
