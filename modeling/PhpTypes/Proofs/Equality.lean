import PhpTypes.Proofs.TypeParts

/-!
# Equality of types

Equality of types is transitive and symmetric, and it is reflexive where no float occurs that
differs from itself.
-/

namespace PhpTypes

section

open Float.Model (UnpackedFloat)

private theorem of_compare_then {d e : Int} {m n : Nat}
    (h : (compare d e).then (compare m n) = .eq) : d = e ∧ m = n := by
  rw [Ordering.then_eq_eq] at h
  exact ⟨Std.LawfulEqCmp.eq_of_compare h.1, Std.LawfulEqCmp.eq_of_compare h.2⟩

/-- Floats that are equal are the same, or zeros of any sign. -/
private theorem unpacked_of_beq {a b : UnpackedFloat} (h : a.beq b = true) :
    a = b ∨ ∃ s t, a = .zero s ∧ b = .zero t := by
  have hcompare : a.compare b = some .eq := eq_of_beq h
  cases a with
  | notANumber => cases hcompare
  | infinity s =>
    left
    cases b with
    | infinity t =>
      cases s with
      | positive =>
        cases t with
        | positive => rfl
        | negative => cases hcompare
      | negative =>
        cases t with
        | positive => cases hcompare
        | negative => rfl
    | notANumber | zero t | finite t => cases s <;> cases hcompare
  | zero s =>
    right
    cases b with
    | zero t => exact ⟨s, t, rfl, rfl⟩
    | notANumber => cases hcompare
    | infinity t | finite t => cases t <;> cases hcompare
  | finite s m d =>
    left
    cases b with
    | notANumber | zero t => cases s <;> cases hcompare
    | infinity t => cases s <;> cases t <;> cases hcompare
    | finite t n e =>
      cases s with
      | positive =>
        cases t with
        | positive =>
          obtain ⟨rfl, rfl⟩ := of_compare_then (Option.some.inj hcompare)
          rfl
        | negative => cases hcompare
      | negative =>
        cases t with
        | positive => cases hcompare
        | negative =>
          have hswap : ((compare d e).then (compare m n)).swap = .eq := Option.some.inj hcompare
          obtain ⟨rfl, rfl⟩ := of_compare_then (Ordering.swap_eq_eq.mp hswap)
          rfl

theorem float_beq_trans {x y z : Float} (hxy : (x == y) = true) (hyz : (y == z) = true) :
    (x == z) = true := by
  change UnpackedFloat.beq _ _ = true at hxy hyz ⊢
  rcases unpacked_of_beq hxy with hx | ⟨s, t, hx, hy⟩
  · rwa [hx]
  · rcases unpacked_of_beq hyz with hz | ⟨-, u, -, hz⟩
    · rw [hx, ← hz, hy]
      rfl
    · rw [hx, hz]
      rfl

theorem float_beq_symm {x y : Float} (h : (x == y) = true) : (y == x) = true := by
  change UnpackedFloat.beq _ _ = true at h ⊢
  rcases unpacked_of_beq h with heq | ⟨s, t, hx, hy⟩
  · rw [heq] at h ⊢
    exact h
  · rw [hx, hy]
    rfl

end

namespace Ty

/-! Unions and intersections compare as sets. -/

private theorem containedIn_iff {as bs : List Ty} :
    containedIn as bs = true ↔ ∀ a ∈ as, ∃ b ∈ bs, same a b = true := by
  induction as with
  | nil => simp [containedIn]
  | cons a as ih => simp [containedIn, ih]

private theorem unmatched_eq_nil_iff {as bs : List Ty} :
    unmatched as bs = [] ↔ ∀ b ∈ bs, ∃ a ∈ as, same a b = true := by
  induction as generalizing bs with
  | nil => simp [unmatched, List.eq_nil_iff_forall_not_mem]
  | cons a as ih =>
    simp only [unmatched, ih, List.mem_filter, List.mem_cons, exists_eq_or_imp]
    refine forall_congr' fun b => ?_
    cases same a b <;> simp

/-- Two lists of types with the same elements up to equality. -/
def SameSet (as bs : List Ty) : Prop :=
  (∀ a ∈ as, ∃ b ∈ bs, same a b = true) ∧ ∀ b ∈ bs, ∃ a ∈ as, same a b = true

theorem sameSet_iff {as bs : List Ty} :
    (containedIn as bs && (unmatched as bs).isEmpty) = true ↔ SameSet as bs := by
  simp [SameSet, containedIn_iff, unmatched_eq_nil_iff]

/-! Transitivity. -/

def TransitiveAt (a : Ty) : Prop :=
  ∀ ⦃b c : Ty⦄, same a b = true → same b c = true → same a c = true

theorem SameSet.trans {as bs cs : List Ty} (ht : ∀ a ∈ as, TransitiveAt a) (hab : SameSet as bs)
    (hbc : SameSet bs cs) : SameSet as cs := by
  constructor
  · intro a ha
    obtain ⟨b, hb, hab⟩ := hab.1 a ha
    obtain ⟨c, hc, hbc⟩ := hbc.1 b hb
    exact ⟨c, hc, ht a ha hab hbc⟩
  · intro c hc
    obtain ⟨b, hb, hbc⟩ := hbc.2 c hc
    obtain ⟨a, ha, hab⟩ := hab.2 b hb
    exact ⟨a, ha, ht a ha hab hbc⟩

private theorem sameAll_trans {as bs cs : List Ty} (ht : ∀ a ∈ as, TransitiveAt a)
    (hab : sameAll as bs = true) (hbc : sameAll bs cs = true) : sameAll as cs = true := by
  induction as generalizing bs cs with
  | nil =>
    cases bs <;> simp only [sameAll, Bool.false_eq_true] at hab
    exact hbc
  | cons a as ih =>
    cases bs <;> simp only [sameAll, Bool.false_eq_true, Bool.and_eq_true] at hab
    cases cs <;> simp only [sameAll, Bool.false_eq_true, Bool.and_eq_true] at hbc ⊢
    rw [List.forall_mem_cons] at ht
    exact ⟨ht.1 hab.1 hbc.1, ih ht.2 hab.2 hbc.2⟩

private theorem sameItem_trans {i j k : Item} (ht : TransitiveAt i.value)
    (hij : sameItem i j = true) (hjk : sameItem j k = true) : sameItem i k = true := by
  obtain ⟨_, _, _, _, _⟩ := i
  obtain ⟨_, _, _, _, _⟩ := j
  obtain ⟨_, _, _, _, _⟩ := k
  simp only [sameItem, Bool.and_eq_true, beq_iff_eq] at hij hjk ⊢
  exact ⟨⟨hij.1.1.trans hjk.1.1, ht hij.1.2 hjk.1.2⟩, hij.2.trans hjk.2⟩

private theorem sameItems_trans {is js ks : List Item} (ht : ∀ i ∈ is, TransitiveAt i.value)
    (hij : sameItems is js = true) (hjk : sameItems js ks = true) : sameItems is ks = true := by
  induction is generalizing js ks with
  | nil =>
    cases js <;> simp only [sameItems, Bool.false_eq_true] at hij
    exact hjk
  | cons i is ih =>
    cases js <;> simp only [sameItems, Bool.false_eq_true, Bool.and_eq_true] at hij
    cases ks <;> simp only [sameItems, Bool.false_eq_true, Bool.and_eq_true] at hjk ⊢
    rw [List.forall_mem_cons] at ht
    exact ⟨sameItem_trans ht.1 hij.1 hjk.1, ih ht.2 hij.2 hjk.2⟩

private theorem float_option_beq_trans {x y z : Option Float} (hxy : (x == y) = true)
    (hyz : (y == z) = true) : (x == z) = true := by
  cases x with
  | none =>
    cases y with
    | none => exact hyz
    | some y => cases hxy
  | some x =>
    cases y with
    | none => cases hxy
    | some y =>
      cases z with
      | none => cases hyz
      | some z => exact float_beq_trans hxy hyz

/-- A map without a key type differs from one that has a key type. -/
theorem same_map_iff {key key' : Option Ty} {value value' : Ty} :
    same (.map key value) (.map key' value') = true ↔
      Option.Rel (fun k l => same k l = true) key key' ∧ same value value' = true := by
  cases key <;> cases key' <;> simp [same]

private theorem optionRel_trans {key key' key'' : Option Ty} (ht : ∀ k ∈ key, TransitiveAt k)
    (h : Option.Rel (fun k l => same k l = true) key key')
    (h' : Option.Rel (fun k l => same k l = true) key' key'') :
    Option.Rel (fun k l => same k l = true) key key'' := by
  cases h with
  | none => exact h'
  | some h =>
    cases h' with
    | some h' => exact .some (ht _ rfl h h')

-- By recursion on the first type. The parts of the others are met through those that equal its own.
mutual

private theorem transitiveAt : ∀ a : Ty, TransitiveAt a
  | .unknown | .null | .boolean => by
    intro b c hab hbc
    cases b <;> simp only [same, Bool.false_eq_true] at hab
    exact hbc
  | .int _ | .string _ | .object _ _ => by
    intro b c hab hbc
    cases b <;> simp only [same, beq_iff_eq, Bool.false_eq_true] at hab
    cases c <;> simp only [same, beq_iff_eq, Bool.false_eq_true] at hbc ⊢
    exact hab.trans hbc
  | .float _ => by
    intro b c hab hbc
    cases b <;> simp only [same, Bool.false_eq_true] at hab
    cases c <;> simp only [same, Bool.false_eq_true] at hbc ⊢
    exact float_option_beq_trans hab hbc
  | .array items => by
    intro b c hab hbc
    cases b <;> simp only [same, Bool.false_eq_true] at hab
    cases c <;> simp only [same, Bool.false_eq_true] at hbc ⊢
    exact sameItems_trans (transitiveAt_items items) hab hbc
  | .map key value => by
    intro b c hab hbc
    cases b <;> simp only [same_map_iff, same, Bool.false_eq_true] at hab
    cases c <;> simp only [same_map_iff, same, Bool.false_eq_true] at hbc ⊢
    exact ⟨optionRel_trans (transitiveAt_option key) hab.1 hbc.1, transitiveAt value hab.2 hbc.2⟩
  | .union types => by
    intro b c hab hbc
    cases b <;> simp only [same, sameSet_iff, Bool.false_eq_true] at hab
    cases c <;> simp only [same, sameSet_iff, Bool.false_eq_true] at hbc ⊢
    exact hab.trans (transitiveAt_all types) hbc
  | .intersection types => by
    intro b c hab hbc
    cases b <;> simp only [same, sameSet_iff, Bool.false_eq_true] at hab
    cases c <;> simp only [same, sameSet_iff, Bool.false_eq_true] at hbc ⊢
    exact hab.trans (transitiveAt_all types) hbc
  | .function result params => by
    intro b c hab hbc
    cases b <;> simp only [same, Bool.false_eq_true, Bool.and_eq_true] at hab
    cases c <;> simp only [same, Bool.false_eq_true, Bool.and_eq_true] at hbc ⊢
    exact ⟨transitiveAt result hab.1 hbc.1, sameAll_trans (transitiveAt_all params) hab.2 hbc.2⟩

private theorem transitiveAt_option : ∀ key : Option Ty, ∀ k ∈ key, TransitiveAt k
  | none => by simp
  | some k => by
    rintro _ ⟨⟩
    exact transitiveAt k

private theorem transitiveAt_all : ∀ as : List Ty, ∀ a ∈ as, TransitiveAt a
  | [] => by simp
  | a :: as => List.forall_mem_cons.mpr ⟨transitiveAt a, transitiveAt_all as⟩

private theorem transitiveAt_items : ∀ is : List Item, ∀ i ∈ is, TransitiveAt i.value
  | [] => by simp
  | .mk _ value _ _ _ :: is =>
    List.forall_mem_cons.mpr ⟨transitiveAt value, transitiveAt_items is⟩

end

theorem same_trans {a b c : Ty} (hab : same a b = true) (hbc : same b c = true) :
    same a c = true :=
  transitiveAt a hab hbc

/-! Symmetry. -/

def SymmetricAt (a : Ty) : Prop := ∀ ⦃b : Ty⦄, same a b = true → same b a = true

theorem SameSet.symm {as bs : List Ty} (hs : ∀ a ∈ as, SymmetricAt a) (h : SameSet as bs) :
    SameSet bs as := by
  constructor
  · intro b hb
    obtain ⟨a, ha, hab⟩ := h.2 b hb
    exact ⟨a, ha, hs a ha hab⟩
  · intro a ha
    obtain ⟨b, hb, hab⟩ := h.1 a ha
    exact ⟨b, hb, hs a ha hab⟩

private theorem sameAll_symm {as bs : List Ty} (hs : ∀ a ∈ as, SymmetricAt a)
    (h : sameAll as bs = true) : sameAll bs as = true := by
  induction as generalizing bs with
  | nil => cases bs <;> simp only [sameAll, Bool.false_eq_true] at h ⊢
  | cons a as ih =>
    cases bs <;> simp only [sameAll, Bool.false_eq_true, Bool.and_eq_true] at h ⊢
    rw [List.forall_mem_cons] at hs
    exact ⟨hs.1 h.1, ih hs.2 h.2⟩

private theorem sameItem_symm {i j : Item} (hs : SymmetricAt i.value) (h : sameItem i j = true) :
    sameItem j i = true := by
  obtain ⟨_, _, _, _, _⟩ := i
  obtain ⟨_, _, _, _, _⟩ := j
  simp only [sameItem, Bool.and_eq_true, beq_iff_eq] at h ⊢
  exact ⟨⟨h.1.1.symm, hs h.1.2⟩, h.2.symm⟩

private theorem sameItems_symm {is js : List Item} (hs : ∀ i ∈ is, SymmetricAt i.value)
    (h : sameItems is js = true) : sameItems js is = true := by
  induction is generalizing js with
  | nil => cases js <;> simp only [sameItems, Bool.false_eq_true] at h ⊢
  | cons i is ih =>
    cases js <;> simp only [sameItems, Bool.false_eq_true, Bool.and_eq_true] at h ⊢
    rw [List.forall_mem_cons] at hs
    exact ⟨sameItem_symm hs.1 h.1, ih hs.2 h.2⟩

private theorem float_option_beq_symm {x y : Option Float} (h : (x == y) = true) :
    (y == x) = true := by
  cases x with
  | none =>
    cases y with
    | none => rfl
    | some y => cases h
  | some x =>
    cases y with
    | none => cases h
    | some y => exact float_beq_symm h

private theorem optionRel_symm {key key' : Option Ty} (hs : ∀ k ∈ key, SymmetricAt k)
    (h : Option.Rel (fun k l => same k l = true) key key') :
    Option.Rel (fun k l => same k l = true) key' key := by
  cases h with
  | none => exact .none
  | some h => exact .some (hs _ rfl h)

mutual

private theorem symmetricAt : ∀ a : Ty, SymmetricAt a
  | .unknown | .null | .boolean => by
    intro b h
    cases b <;> simp only [same, Bool.false_eq_true] at h ⊢
  | .int _ | .string _ | .object _ _ => by
    intro b h
    cases b <;> simp only [same, beq_iff_eq, Bool.false_eq_true] at h ⊢
    exact h.symm
  | .float _ => by
    intro b h
    cases b <;> simp only [same, Bool.false_eq_true] at h ⊢
    exact float_option_beq_symm h
  | .array items => by
    intro b h
    cases b <;> simp only [same, Bool.false_eq_true] at h ⊢
    exact sameItems_symm (symmetricAt_items items) h
  | .map key value => by
    intro b h
    cases b <;> simp only [same_map_iff, same, Bool.false_eq_true] at h ⊢
    exact ⟨optionRel_symm (symmetricAt_option key) h.1, symmetricAt value h.2⟩
  | .union types => by
    intro b h
    cases b <;> simp only [same, sameSet_iff, Bool.false_eq_true] at h ⊢
    exact h.symm (symmetricAt_all types)
  | .intersection types => by
    intro b h
    cases b <;> simp only [same, sameSet_iff, Bool.false_eq_true] at h ⊢
    exact h.symm (symmetricAt_all types)
  | .function result params => by
    intro b h
    cases b <;> simp only [same, Bool.false_eq_true, Bool.and_eq_true] at h ⊢
    exact ⟨symmetricAt result h.1, sameAll_symm (symmetricAt_all params) h.2⟩

private theorem symmetricAt_option : ∀ key : Option Ty, ∀ k ∈ key, SymmetricAt k
  | none => by simp
  | some k => by
    rintro _ ⟨⟩
    exact symmetricAt k

private theorem symmetricAt_all : ∀ as : List Ty, ∀ a ∈ as, SymmetricAt a
  | [] => by simp
  | a :: as => List.forall_mem_cons.mpr ⟨symmetricAt a, symmetricAt_all as⟩

private theorem symmetricAt_items : ∀ is : List Item, ∀ i ∈ is, SymmetricAt i.value
  | [] => by simp
  | .mk _ value _ _ _ :: is =>
    List.forall_mem_cons.mpr ⟨symmetricAt value, symmetricAt_items is⟩

end

theorem same_symm {a b : Ty} (h : same a b = true) : same b a = true := symmetricAt a h

/-! Reflexivity. -/

/-- A float of known value is a number: it is equal to itself. -/
def NumberNode : Ty → Prop
  | .float (some x) => (x == x) = true
  | _ => True

theorem SameSet.refl {ts : List Ty} (h : ∀ t ∈ ts, same t t = true) : SameSet ts ts :=
  ⟨fun t ht => ⟨t, ht, h t ht⟩, fun t ht => ⟨t, ht, h t ht⟩⟩

private theorem sameAll_self {ts : List Ty} (h : ∀ t ∈ ts, same t t = true) :
    sameAll ts ts = true := by
  induction ts with
  | nil => rw [sameAll]
  | cons t ts ih =>
    rw [List.forall_mem_cons] at h
    rw [sameAll, h.1, ih h.2, Bool.and_self]

private theorem sameItems_self {is : List Item} (h : ∀ i ∈ is, same i.value i.value = true) :
    sameItems is is = true := by
  induction is with
  | nil => rw [sameItems]
  | cons i is ih =>
    obtain ⟨k, v, o, d, n⟩ := i
    rw [List.forall_mem_cons] at h
    simpa [sameItems, sameItem, ih h.2, Item.value] using h.1

mutual

/-- A type in which every float is a number is equal to itself. -/
theorem same_self : ∀ t : Ty, t.Every NumberNode → same t t = true
  | .unknown, _ | .null, _ | .boolean, _ => by rw [same]
  | .int _, _ | .string _, _ | .object _ _, _ => by rw [same, beq_self_eq_true]
  | .float none, _ => by
    rw [same]
    rfl
  | .float (some x), h => by
    rw [same]
    exact h.self
  | .array items, h => by
    rw [same]
    exact sameItems_self (same_self_items items (every_array.mp h).2)
  | .map key value, h => by
    obtain ⟨-, hk, hv⟩ := every_map.mp h
    rw [same_map_iff]
    refine ⟨?_, same_self value hv⟩
    have hk := same_self_option key hk
    cases key with
    | none => exact .none
    | some k => exact .some (hk k rfl)
  | .union types, h | .intersection types, h => by
    rw [same, sameSet_iff]
    exact .refl (same_self_all types (forall_partsOfAll.mp fun u hu => h u (by simp [parts, hu])))
  | .function result params, h => by
    obtain ⟨-, hr, hp⟩ := every_function.mp h
    rw [same, same_self result hr, sameAll_self (same_self_all params hp), Bool.and_self]

private theorem same_self_option :
    ∀ key : Option Ty, (∀ k ∈ key, k.Every NumberNode) → ∀ k ∈ key, same k k = true
  | none, _ => by simp
  | some k, h => by
    rintro _ ⟨⟩
    exact same_self k (h k rfl)

private theorem same_self_all :
    ∀ ts : List Ty, (∀ t ∈ ts, t.Every NumberNode) → ∀ t ∈ ts, same t t = true
  | [], _ => by simp
  | t :: ts, h => by
    rw [List.forall_mem_cons] at h ⊢
    exact ⟨same_self t h.1, same_self_all ts h.2⟩

private theorem same_self_items :
    ∀ is : List Item, (∀ i ∈ is, i.value.Every NumberNode) → ∀ i ∈ is, same i.value i.value = true
  | [], _ => by simp
  | .mk _ value _ _ _ :: is, h => by
    rw [List.forall_mem_cons] at h ⊢
    exact ⟨same_self value h.1, same_self_items is h.2⟩

end

end Ty
end PhpTypes
