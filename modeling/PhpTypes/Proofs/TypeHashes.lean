import Mathlib.Algebra.BigOperators.Group.Multiset.Defs
import Mathlib.Algebra.Group.Nat.Defs
import Mathlib.Data.List.Forall2
import PhpTypes.Proofs.UnionLaws

/-!
# Hashes of types

Equality of types is an equivalence relation, given that every float of known value is a number, and
equal types have equal hashes. So a set that looks for a type by its hash finds an equal one as soon
as it has one. Such sets keep the first occurrences of types, and they are equal just if the unions
of their elements are.
-/

namespace PhpTypes.Ty

/-! Sets that look for types by their hashes. -/

/-- The ways in which hashes are made: of texts, numbers and flags, of no value, of tuples from the
hashes of their parts, and of sets from the hashes of their elements in any order. Floats that are
equal have the same hash. -/
structure Hashing (α : Type) where
  nothing : α
  flag : Bool → α
  int : Int → α
  float : Float → α
  text : String → α
  tuple : List α → α
  set : Multiset α → α
  float_congr : ∀ {x y : Float}, (x == y) = true → float x = float y

theorem Hashing.float_option_congr {α : Type} (H : Hashing α) {x y : Option Float}
    (h : (x == y) = true) : (x.map H.float).getD H.nothing = (y.map H.float).getD H.nothing := by
  cases x with
  | none =>
    cases y with
    | none => rfl
    | some y => cases h
  | some x =>
    cases y with
    | none => cases h
    | some y => exact H.float_congr h

section

variable {α : Type}

/-- Types with their hashes. -/
def hashed (h : Ty → α) (ts : List Ty) : List (Ty × α) := ts.map fun t => (t, h t)

private theorem map_snd_hashed (h : Ty → α) (ts : List Ty) :
    (hashed h ts).map Prod.snd = ts.map h := by
  rw [hashed, List.map_map]
  rfl

/-- Among these types equal ones have equal hashes. -/
def Respects (h : Ty → α) (ts : List Ty) : Prop :=
  ∀ t ∈ ts, ∀ u ∈ ts, same t u = true → h t = h u

variable [DecidableEq α]

/-- Whether a set has a type: one with the same hash that equals it. -/
def foundIn (s : List (Ty × α)) (t : Ty × α) : Bool :=
  s.any fun k => decide (k.2 = t.2) && same k.1 t.1

/-- The elements of a set, with their hashes, after types have been added to it one by one. -/
def hashSet (ts : List (Ty × α)) : List (Ty × α) :=
  ts.foldl (fun s t => if foundIn s t then s else s ++ [t]) []

/-- Sets are equal if they have as many elements, and the second has each element of the first. -/
def equalSets (s s' : List (Ty × α)) : Bool :=
  decide (s.length = s'.length) && s.all (foundIn s')

private theorem hashSet_snoc (ts : List (Ty × α)) (t : Ty × α) :
    hashSet (ts ++ [t]) = if foundIn (hashSet ts) t then hashSet ts else hashSet ts ++ [t] := by
  rw [hashSet, List.foldl_append]
  rfl

private theorem foundIn_hashed {h : Ty → α} {ts : List Ty} {t : Ty}
    (hr : ∀ k ∈ ts, same k t = true → h k = h t) :
    foundIn (hashed h ts) (t, h t) = ts.any fun k => same k t := by
  rw [Bool.eq_iff_iff, foundIn, hashed, List.any_map, List.any_eq_true, List.any_eq_true]
  constructor
  · intro hfound
    obtain ⟨k, hk, hsame⟩ := hfound
    exact ⟨k, hk, (Bool.and_eq_true_iff.mp hsame).2⟩
  · intro hfound
    obtain ⟨k, hk, hsame⟩ := hfound
    exact ⟨k, hk, Bool.and_eq_true_iff.mpr ⟨decide_eq_true (hr k hk hsame), hsame⟩⟩

/-- A set keeps what differs from all types before it, if equal types have equal hashes. -/
theorem hashSet_hashed {h : Ty → α} {ts : List Ty} (hr : Respects h ts) :
    hashSet (hashed h ts) = hashed h (distinct ts) := by
  induction ts using List.reverseRecOn with
  | nil => rfl
  | append_singleton ts t ih =>
    have hbefore : Respects h ts := by
      intro k hk u hu
      exact hr k (List.mem_append_left _ hk) u (List.mem_append_left _ hu)
    have hfound : foundIn (hashed h (distinct ts)) (t, h t) = ts.any fun k => same k t := by
      rw [foundIn_hashed, any_distinct]
      intro k hk
      exact hr k (List.mem_append_left _ (distinctFrom_subset hk)) t (by simp)
    have hsnoc : hashed h (ts ++ [t]) = hashed h ts ++ [(t, h t)] := by simp [hashed]
    rw [hsnoc, hashSet_snoc, ih hbefore, hfound, distinct_snoc]
    by_cases hany : (ts.any fun k => same k t) = true
    · rw [if_pos hany, if_pos hany, List.append_nil]
    · rw [if_neg hany, if_neg hany, hashed, hashed, List.map_append]
      rfl

end

/-! Different types with equal ones in another list. -/

private theorem same_comm (a b : Ty) : same a b = same b a :=
  Bool.eq_iff_iff.mpr ⟨same_symm, same_symm⟩

/-- Types that differ from each other have partners in a list that equal them, each its own. -/
theorem exists_partners {xs ys : List Ty} (h : ∀ x ∈ xs, ∃ y ∈ ys, same x y = true)
    (hxs : xs.Pairwise fun a b => same a b = false) :
    ∃ zs others, ys.Perm (zs ++ others) ∧ List.Forall₂ (fun x z => same x z = true) xs zs := by
  induction xs generalizing ys with
  | nil => exact ⟨[], ys, List.Perm.refl ys, .nil⟩
  | cons x xs ih =>
    obtain ⟨hdiffer, hxs⟩ := List.pairwise_cons.mp hxs
    obtain ⟨⟨y, hy, hxy⟩, hrest⟩ := List.forall_mem_cons.mp h
    obtain ⟨front, back, rfl⟩ := List.append_of_mem hy
    have hothers : ∀ a ∈ xs, ∃ b ∈ front ++ back, same a b = true := by
      intro a ha
      obtain ⟨b, hb, hab⟩ := hrest a ha
      have hne : b ≠ y := by
        intro hby
        have hxa := same_trans hxy (same_symm (hby ▸ hab))
        rw [hdiffer a ha] at hxa
        cases hxa
      refine ⟨b, ?_, hab⟩
      simpa [hne] using hb
    obtain ⟨zs, others, hperm, hpartners⟩ := ih hothers hxs
    exact ⟨y :: zs, others, List.perm_middle.trans (hperm.cons y), .cons hxy hpartners⟩

private theorem exists_same_of_forall₂ {xs zs : List Ty}
    (h : List.Forall₂ (fun x z => same x z = true) xs zs) :
    (∀ x ∈ xs, ∃ z ∈ zs, same x z = true) ∧ ∀ z ∈ zs, ∃ x ∈ xs, same x z = true := by
  induction h with
  | nil => simp
  | cons hxz _ ih =>
    simp only [List.forall_mem_cons, List.exists_mem_cons_iff]
    exact ⟨⟨.inl hxz, fun x hx => .inr (ih.1 x hx)⟩, .inl hxz, fun z hz => .inr (ih.2 z hz)⟩

private theorem forall₂_of_sameAll {as bs : List Ty} (h : sameAll as bs = true) :
    List.Forall₂ (fun a b => same a b = true) as bs := by
  induction as generalizing bs with
  | nil =>
    cases bs <;> simp only [sameAll, Bool.false_eq_true] at h
    exact .nil
  | cons a as ih =>
    cases bs <;> simp only [sameAll, Bool.false_eq_true, Bool.and_eq_true] at h
    exact .cons h.1 (ih h.2)

/-- Lists of different types with the same elements have their elements in pairs. -/
theorem SameSet.partners {xs ys : List Ty} (h : SameSet xs ys)
    (hxs : xs.Pairwise fun a b => same a b = false)
    (hys : ys.Pairwise fun a b => same a b = false) :
    ∃ zs, ys.Perm zs ∧ List.Forall₂ (fun x z => same x z = true) xs zs := by
  obtain ⟨zs, others, hperm, hpartners⟩ := exists_partners h.1 hxs
  have hnone : others = [] := by
    apply List.eq_nil_iff_forall_not_mem.mpr
    intro b hb
    obtain ⟨x, hx, hxb⟩ := h.2 b (hperm.mem_iff.mpr (List.mem_append_right _ hb))
    obtain ⟨z, hz, hxz⟩ := (exists_same_of_forall₂ hpartners).1 x hx
    have hpairwise := (hperm.pairwise_iff fun hab => (same_comm _ _).trans hab).mp hys
    have hzb := (List.pairwise_append.mp hpairwise).2.2 z hz b hb
    rw [same_trans (same_symm hxz) hxb] at hzb
    cases hzb
  rw [hnone, List.append_nil] at hperm
  exact ⟨zs, hperm, hpartners⟩

private theorem sameSet_of_length {xs ys : List Ty} (h : ∀ x ∈ xs, ∃ y ∈ ys, same x y = true)
    (hxs : xs.Pairwise fun a b => same a b = false) (hlength : xs.length = ys.length) :
    SameSet xs ys := by
  obtain ⟨zs, others, hperm, hpartners⟩ := exists_partners h hxs
  have hnone : others = [] := by
    have htotal := hperm.length_eq
    rw [List.length_append, ← hpartners.length_eq] at htotal
    apply List.eq_nil_of_length_eq_zero
    omega
  rw [hnone, List.append_nil] at hperm
  constructor
  · exact h
  · intro y hy
    exact (exists_same_of_forall₂ hpartners).2 y (hperm.mem_iff.mp hy)

private theorem sameSet_distinct_iff {as bs : List Ty} :
    SameSet (distinct as) (distinct bs) ↔ SameSet as bs := by
  apply Iff.intro _ sameSet_distinct
  intro h
  have hkept : ∀ {ts : List Ty} {t : Ty}, t ∈ ts → ∃ u ∈ distinct ts, u = t ∨ same u t = true := by
    intro ts t ht
    rcases exists_mem_distinctFrom [] ht with ⟨k, hk, -⟩ | hu
    · cases hk
    · exact hu
  constructor
  · intro a ha
    obtain ⟨u, hu, hua⟩ := hkept ha
    obtain ⟨v, hv, huv⟩ := h.1 u hu
    refine ⟨v, distinctFrom_subset hv, ?_⟩
    rcases hua with rfl | hua
    · exact huv
    · exact same_trans (same_symm hua) huv
  · intro b hb
    obtain ⟨v, hv, hvb⟩ := hkept hb
    obtain ⟨u, hu, huv⟩ := h.2 v hv
    refine ⟨u, distinctFrom_subset hu, ?_⟩
    rcases hvb with rfl | hvb
    · exact huv
    · exact same_trans huv hvb

/-! The hash of a type. -/

section

variable {α : Type} [DecidableEq α]

def hashKey (H : Hashing α) : Option Key → α
  | none => H.nothing
  | some (.int n) => H.int n
  | some (.str s) => H.text s

mutual

/-- The hash of a type is made from what equality looks at: the name of a class in small letters,
the set of the members of a union or an intersection, and no notes on the entries of a shape. -/
@[simp]
def hashWith (H : Hashing α) : Ty → α
  | .unknown => H.text "unknown"
  | .null => H.text "null"
  | .boolean => H.text "boolean"
  | .int v => H.tuple [H.text "int", (v.map H.int).getD H.nothing]
  | .float v => H.tuple [H.text "float", (v.map H.float).getD H.nothing]
  | .string v => H.tuple [H.text "string", (v.map H.text).getD H.nothing]
  | .array items => H.tuple [H.text "array", H.tuple (hashItems H items)]
  | .map none value => H.tuple [H.text "map", H.nothing, hashWith H value]
  | .map (some key) value => H.tuple [H.text "map", hashWith H key, hashWith H value]
  | .object name _ => H.tuple [H.text "object", H.text (Text.lower name)]
  | .union types => H.tuple [H.text "union", H.set ((hashSet (hashAll H types)).map Prod.snd)]
  | .intersection types =>
    H.tuple [H.text "intersection", H.set ((hashSet (hashAll H types)).map Prod.snd)]
  | .function result params =>
    H.tuple [H.text "func", hashWith H result, H.tuple ((hashAll H params).map Prod.snd)]

@[simp]
def hashAll (H : Hashing α) : List Ty → List (Ty × α)
  | [] => []
  | t :: ts => (t, hashWith H t) :: hashAll H ts

@[simp]
def hashItems (H : Hashing α) : List Item → List α
  | [] => []
  | .mk key value isOptional _ _ :: is =>
    H.tuple [hashKey H key, hashWith H value, H.flag isOptional] :: hashItems H is

end

private theorem hashAll_eq_hashed (H : Hashing α) (ts : List Ty) :
    hashAll H ts = hashed (hashWith H) ts := by
  induction ts with
  | nil => rw [hashAll, hashed, List.map_nil]
  | cons t ts ih =>
    rw [hashAll, ih]
    rfl

/-! Equal types have equal hashes. -/

/-- What equals this type has its hash. -/
def HashedAlike (H : Hashing α) (a : Ty) : Prop :=
  ∀ ⦃b : Ty⦄, same a b = true → hashWith H a = hashWith H b

variable {H : Hashing α}

private theorem map_hashWith_of_partners {xs zs : List Ty} (hxs : ∀ x ∈ xs, HashedAlike H x)
    (h : List.Forall₂ (fun x z => same x z = true) xs zs) :
    xs.map (hashWith H) = zs.map (hashWith H) := by
  induction h with
  | nil => rfl
  | cons hxz _ ih =>
    rw [List.forall_mem_cons] at hxs
    rw [List.map_cons, List.map_cons, hxs.1 hxz, ih hxs.2]

/-- Equal sets have equal hashes, as soon as this holds of their elements. -/
theorem perm_hashSet {as bs : List Ty} (ha : ∀ a ∈ as, HashedAlike H a) (h : SameSet as bs) :
    ((hashSet (hashAll H as)).map Prod.snd).Perm ((hashSet (hashAll H bs)).map Prod.snd) := by
  have has : Respects (hashWith H) as := fun a hmem u _ hsame => ha a hmem hsame
  have hbs : Respects (hashWith H) bs := by
    intro b hb u _ hsame
    obtain ⟨a, hmem, hab⟩ := h.2 b hb
    rw [← ha a hmem hab, ← ha a hmem (same_trans hab hsame)]
  obtain ⟨zs, hperm, hpartners⟩ := (sameSet_distinct h).partners (distinctFrom_pairwise [] as)
    (distinctFrom_pairwise [] bs)
  have hhashes : (distinct as).map (hashWith H) = zs.map (hashWith H) :=
    map_hashWith_of_partners (fun a hmem => ha a (distinctFrom_subset hmem)) hpartners
  rw [hashAll_eq_hashed, hashAll_eq_hashed, hashSet_hashed has, hashSet_hashed hbs,
    map_snd_hashed, map_snd_hashed, hhashes]
  exact (hperm.map _).symm

private theorem hashAll_of_sameAll {as bs : List Ty} (ha : ∀ a ∈ as, HashedAlike H a)
    (h : sameAll as bs = true) : (hashAll H as).map Prod.snd = (hashAll H bs).map Prod.snd := by
  rw [hashAll_eq_hashed, hashAll_eq_hashed, map_snd_hashed, map_snd_hashed]
  exact map_hashWith_of_partners ha (forall₂_of_sameAll h)

private theorem hashItems_of_sameItems {is js : List Item} (hi : ∀ i ∈ is, HashedAlike H i.value)
    (h : sameItems is js = true) : hashItems H is = hashItems H js := by
  induction is generalizing js with
  | nil =>
    cases js <;> simp only [sameItems, Bool.false_eq_true] at h
    rfl
  | cons i is ih =>
    cases js with
    | nil => simp only [sameItems, Bool.false_eq_true] at h
    | cons j js =>
      obtain ⟨k, v, o, _, _⟩ := i
      obtain ⟨l, w, p, _, _⟩ := j
      simp only [sameItems, sameItem, Bool.and_eq_true, beq_iff_eq] at h
      rw [List.forall_mem_cons] at hi
      have hvalue : hashWith H v = hashWith H w := hi.1 h.1.1.2
      rw [hashItems, hashItems, h.1.1.1, h.1.2, hvalue, ih hi.2 h.2]

-- By recursion on the first type, as for transitivity: a part of the other one is met through the
-- part that equals it.
mutual

private theorem hashedAlike (H : Hashing α) : ∀ a : Ty, HashedAlike H a
  | .unknown | .null | .boolean => by
    intro b h
    cases b <;> simp only [same, Bool.false_eq_true] at h
    rfl
  | .int _ | .string _ => by
    intro b h
    cases b <;> simp only [same, beq_iff_eq, Bool.false_eq_true] at h
    rw [h]
  | .object _ _ => by
    intro b h
    cases b <;> simp only [same, beq_iff_eq, Bool.false_eq_true] at h
    rw [hashWith, hashWith, h]
  | .float _ => by
    intro b h
    cases b <;> simp only [same, Bool.false_eq_true] at h
    rw [hashWith, hashWith, H.float_option_congr h]
  | .array items => by
    intro b h
    cases b <;> simp only [same, Bool.false_eq_true] at h
    rw [hashWith, hashWith, hashItems_of_sameItems (hashedAlike_items H items) h]
  | .map none value => by
    intro b h
    cases b <;> simp only [same_map_iff, same, Bool.false_eq_true] at h
    obtain ⟨hkey, hvalue⟩ := h
    cases hkey
    rw [hashWith, hashWith, hashedAlike H value hvalue]
  | .map (some key) value => by
    intro b h
    cases b <;> simp only [same_map_iff, same, Bool.false_eq_true] at h
    obtain ⟨hkey, hvalue⟩ := h
    cases hkey with
    | some hkey => rw [hashWith, hashWith, hashedAlike H key hkey, hashedAlike H value hvalue]
  | .union types => by
    intro b h
    cases b <;> simp only [same, sameSet_iff, Bool.false_eq_true] at h
    rw [hashWith, hashWith, Multiset.coe_eq_coe.mpr (perm_hashSet (hashedAlike_all H types) h)]
  | .intersection types => by
    intro b h
    cases b <;> simp only [same, sameSet_iff, Bool.false_eq_true] at h
    rw [hashWith, hashWith, Multiset.coe_eq_coe.mpr (perm_hashSet (hashedAlike_all H types) h)]
  | .function result params => by
    intro b h
    cases b <;> simp only [same, Bool.false_eq_true, Bool.and_eq_true] at h
    rw [hashWith, hashWith, hashedAlike H result h.1,
      hashAll_of_sameAll (hashedAlike_all H params) h.2]

private theorem hashedAlike_all (H : Hashing α) : ∀ as : List Ty, ∀ a ∈ as, HashedAlike H a
  | [] => by simp
  | a :: as => List.forall_mem_cons.mpr ⟨hashedAlike H a, hashedAlike_all H as⟩

private theorem hashedAlike_items (H : Hashing α) :
    ∀ is : List Item, ∀ i ∈ is, HashedAlike H i.value
  | [] => by simp
  | .mk _ value _ _ _ :: is =>
    List.forall_mem_cons.mpr ⟨hashedAlike H value, hashedAlike_items H is⟩

end

/-! What sets of types do. -/

private theorem hashSet_hashAll (H : Hashing α) (ts : List Ty) :
    hashSet (hashAll H ts) = hashed (hashWith H) (distinct ts) := by
  rw [hashAll_eq_hashed]
  exact hashSet_hashed fun t _ u _ hsame => hashedAlike H t hsame

private theorem hashSet_types (H : Hashing α) (ts : List Ty) :
    (hashSet (hashAll H ts)).map Prod.fst = distinct ts := by
  rw [hashSet_hashAll, hashed, List.map_map]
  exact List.map_id _

private theorem equalSets_iff (H : Hashing α) (as bs : List Ty) :
    equalSets (hashSet (hashAll H as)) (hashSet (hashAll H bs)) = true ↔ SameSet as bs := by
  have hfound : ∀ a, foundIn (hashed (hashWith H) (distinct bs)) (a, hashWith H a) = true ↔
      ∃ b ∈ distinct bs, same a b = true := by
    intro a
    rw [foundIn_hashed fun k _ hsame => hashedAlike H k hsame, List.any_eq_true]
    simp only [same_comm a]
  have hsets : equalSets (hashSet (hashAll H as)) (hashSet (hashAll H bs)) = true ↔
      (distinct as).length = (distinct bs).length ∧
        ∀ a ∈ distinct as, ∃ b ∈ distinct bs, same a b = true := by
    simp only [equalSets, hashSet_hashAll, Bool.and_eq_true, decide_eq_true_eq, List.all_eq_true]
    simp only [← hfound]
    simp [hashed]
  rw [hsets, ← sameSet_distinct_iff]
  constructor
  · intro h
    exact sameSet_of_length h.2 (distinctFrom_pairwise [] as) h.1
  · intro h
    obtain ⟨zs, hperm, hpartners⟩ := h.partners (distinctFrom_pairwise [] as)
      (distinctFrom_pairwise [] bs)
    exact ⟨hpartners.length_eq.trans hperm.length_eq.symm, h.1⟩

/-- A type in which every float of known value is a number, at any depth. -/
abbrev NumberTy : Type := {t : Ty // t.Every NumberNode}

/-- Equality of types is an equivalence relation where no float differs from itself. For every way
to make hashes, equal types have equal hashes. Unions and intersections are equal just if the hash
sets of their members are. A hash set to which types are added leaves out just those that equal an
earlier one, and a union has what is left of the members of its candidates. -/
theorem same_equivalence (H : Hashing α) :
    Equivalence (fun a b : NumberTy => same a.1 b.1 = true) ∧
    (∀ a b : Ty, same a b = true → hashWith H a = hashWith H b) ∧
    (∀ as bs : List Ty, same (.union as) (.union bs) =
      equalSets (hashSet (hashAll H as)) (hashSet (hashAll H bs))) ∧
    (∀ as bs : List Ty, same (.intersection as) (.intersection bs) =
      equalSets (hashSet (hashAll H as)) (hashSet (hashAll H bs))) ∧
    (∀ ts : List Ty, (hashSet (hashAll H ts)).map Prod.fst = firstOccurrences ts) ∧
    ∀ ts : List Ty,
      unionOf ts = ofMembers ((hashSet (hashAll H (flattenAll ts))).map Prod.fst) := by
  have hequivalence : Equivalence (fun a b : NumberTy => same a.1 b.1 = true) :=
    ⟨fun a => same_self a.1 a.2, same_symm, same_trans⟩
  have hsets : ∀ as bs : List Ty, (containedIn as bs && (unmatched as bs).isEmpty) =
      equalSets (hashSet (hashAll H as)) (hashSet (hashAll H bs)) := by
    intro as bs
    rw [Bool.eq_iff_iff, sameSet_iff, equalSets_iff]
  refine ⟨hequivalence, fun a b => @hashedAlike α _ H a b, ?_, ?_, ?_, ?_⟩
  · intro as bs
    rw [same, hsets]
  · intro as bs
    rw [same, hsets]
  · intro ts
    rw [hashSet_types, distinct_eq_firstOccurrences]
  · intro ts
    rw [hashSet_types, unionOf]

end

/-- A simple way to make hashes. -/
def countingHash : Hashing Nat where
  nothing := 0
  flag b := b.toNat
  int n := n.natAbs
  float x := if (x == 0.0) = true then 0 else 1
  text s := s.length
  tuple hs := hs.foldl (fun n h => 31 * n + h) 7
  set s := s.sum
  float_congr := by
    intro x y hxy
    have hzero : (x == 0.0) = true ↔ (y == 0.0) = true :=
      ⟨float_beq_trans (float_beq_symm hxy), float_beq_trans hxy⟩
    simp only [hzero]

/-- A member in other letters and a repeated member change neither equality nor the hash. -/
theorem repeatedMembers_same :
    same (.union [.int (some 1), .object "Foo" none, .int (some 1)])
      (.union [.object "FOO" none, .int (some 1)]) = true ∧
    hashWith countingHash (.union [.int (some 1), .object "Foo" none, .int (some 1)]) =
      hashWith countingHash (.union [.object "FOO" none, .int (some 1)]) := by
  have hsame : same (.union [.int (some 1), .object "Foo" none, .int (some 1)])
      (.union [.object "FOO" none, .int (some 1)]) = true := by
    have hlower : Text.lower "Foo" = Text.lower "FOO" := by decide
    simp [same, containedIn, unmatched, hlower]
  exact ⟨hsame, (same_equivalence countingHash).2.1 _ _ hsame⟩

end PhpTypes.Ty
