import Mathlib.Data.List.Basic
import PhpTypes.Inference.Evaluate
import PhpTypes.Proofs.Joins

/-!
# Array shapes

What is read from an array after a write to it. An entry of a known key is found again, and all that
is found under other keys stays. A key that is not known makes a map of the array, which has the
keys and the values that the array had, and those of the write.

A path of known keys leads into arrays within arrays. What is at the end of a path is read level by
level, and is written by writing each level anew, from the last one to the first.
-/

namespace PhpTypes.Ty

/-! Entries of known keys. -/

@[simp]
theorem literalKey?_ofKey (k : Key) : (ofKey k).literalKey? = some k := by
  cases k <;> rfl

theorem getItem?_cons (i : Item) (is : List Item) (key : Key) :
    getItem? (i :: is) key = if i.key = some key then some i else getItem? is key := by
  by_cases h : i.key = some key <;> simp [getItem?, h]

section

variable {key other : Key} {item : Item} (hitem : item.key = some key) (items : List Item)
include hitem

theorem getItem?_replaceItem_self : getItem? (replaceItem key item items) key = some item := by
  induction items with
  | nil => rw [replaceItem, getItem?_cons, if_pos hitem]
  | cons i is ih =>
    rw [replaceItem]
    split
    · rw [getItem?_cons, if_pos hitem]
    · rename_i hkey
      rw [getItem?_cons, if_neg hkey, ih]

theorem getItem?_replaceItem_ne (h : other ≠ key) :
    getItem? (replaceItem key item items) other = getItem? items other := by
  have hne : item.key ≠ some other := by simpa [hitem] using Ne.symm h
  induction items with
  | nil => rw [replaceItem, getItem?_cons, if_neg hne]
  | cons i is ih =>
    rw [replaceItem]
    split
    · rename_i hkey
      have hi : i.key ≠ some other := by rwa [hkey, ← hitem]
      rw [getItem?_cons, getItem?_cons, if_neg hne, if_neg hi]
    · rw [getItem?_cons, getItem?_cons, ih]

/-- An entry with a key takes no position. -/
theorem filter_replaceItem :
    (replaceItem key item items).filter (fun i => i.key.isNone) =
      items.filter fun i => i.key.isNone := by
  induction items with
  | nil => simp [replaceItem, hitem]
  | cons i is ih =>
    rw [replaceItem]
    split
    · rename_i hkey
      simp [hitem, hkey]
    · rw [List.filter_cons, List.filter_cons, ih]

private theorem positional?_replaceItem (n : Int) :
    positional? (replaceItem key item items) n = positional? items n := by
  rw [positional?, positional?, filter_replaceItem hitem]

end

private theorem readShape_of_getItem? {items : List Item} {k : Key} {item : Item}
    (h : getItem? items k = some item) : readShape items (ofKey k) = item.value := by
  rw [readShape, literalKey?_ofKey]
  simp only [h]

/-- What is read depends on the entry of the key and on the positions. -/
theorem readShape_congr {items items' : List Item} {k : Key}
    (hitem : getItem? items k = getItem? items' k)
    (hpos : ∀ n, positional? items n = positional? items' n) :
    readShape items (ofKey k) = readShape items' (ofKey k) := by
  rw [readShape, readShape, literalKey?_ofKey]
  simp only [hitem, hpos]

private theorem writeShape_ofKey (items : List Item) (k : Key) (v : Ty) :
    writeShape items (some (ofKey k)) v = .array (replaceItem k (.of (some k) v) items) := by
  rw [writeShape, literalKey?_ofKey]
  rfl

theorem readIndex_writeShape_self (items : List Item) (k : Key) (v : Ty) :
    readIndex (writeShape items (some (ofKey k)) v) (ofKey k) = v := by
  have hget : getItem? (replaceItem k (.of (some k) v) items) k = some (.of (some k) v) :=
    getItem?_replaceItem_self rfl items
  rw [writeShape_ofKey]
  exact readShape_of_getItem? hget

theorem readIndex_writeShape_ne (items : List Item) {k l : Key} (h : l ≠ k) (v : Ty) :
    readIndex (writeShape items (some (ofKey k)) v) (ofKey l) = readShape items (ofKey l) := by
  rw [writeShape_ofKey]
  exact readShape_congr (getItem?_replaceItem_ne rfl items h) (positional?_replaceItem rfl items)

/-! Containers. -/

/-- The entries of a place that is written to as a shape: a place without a value, or with null, has
none. -/
def shape? : Option Ty → Option (List Item)
  | none => some []
  | some .null => some []
  | some (.array items) => some items
  | some _ => none

theorem writeIndex_of_shape? {c : Option Ty} {items : List Item} (h : shape? c = some items)
    (key : Option Ty) (v : Ty) : writeIndex c key v = writeShape items key v := by
  unfold shape? at h
  split at h <;> cases h <;> rfl

/-- The types of the keys and of the values in a place before a write. -/
def heldTypes : Option Ty → List (Ty × Ty)
  | none => []
  | some .null => []
  | some t => elementTypes t

/-- A type has the members of some types and no others, where members that are equal count as
one. -/
structure MembersOf (t : Ty) (parts : List Ty) : Prop where
  sound : ∀ m ∈ t.members, ∃ p ∈ parts, m ∈ p.members
  complete : ∀ p ∈ parts, ∀ m ∈ p.members, ∃ n ∈ t.members, n = m ∨ same n m = true

private theorem membersOf_unionOf {parts : List Ty} (hne : parts ≠ [])
    (h : ∀ p ∈ parts, p.Every UnionNode) : MembersOf (unionOf parts) parts := by
  have hunion : (unionOf parts).UnionNode := (every_unionOf unionNode_property h).self
  have hmembers : flattenAll parts = parts.flatMap members := by
    rw [flattenAll_eq_flatMap]
    exact List.flatMap_congr fun p hp => (h p hp).self.flatten
  have hsome : flattenAll parts ≠ [] := by
    obtain ⟨p, hp⟩ := List.exists_mem_of_ne_nil _ hne
    obtain ⟨m, hm⟩ := List.exists_mem_of_ne_nil _ (h p hp).self.members_ne_nil
    rw [hmembers]
    exact List.ne_nil_of_mem (List.mem_flatMap.mpr ⟨p, hp, hm⟩)
  constructor
  · intro m hm
    rw [← hunion.flatten, flatten_unionOf hsome] at hm
    have hm : m ∈ flattenAll parts := distinctFrom_subset hm
    rw [hmembers] at hm
    exact List.mem_flatMap.mp hm
  · intro p hp m hm
    rw [← (h p hp).self.flatten] at hm
    rw [← hunion.flatten]
    exact covers_unionOf hp m hm

private theorem heldTypes_of_shape? {c : Option Ty} {items : List Item}
    (h : shape? c = some items) : heldTypes c = items.map fun i => (keyType i.key, i.value) := by
  unfold shape? at h
  split at h <;> cases h <;> rfl

theorem every_heldTypes {c : Option Ty} (h : ∀ t ∈ c, t.Every UnionNode) :
    ∀ e ∈ heldTypes c, e.1.Every UnionNode ∧ e.2.Every UnionNode := by
  unfold heldTypes
  split
  · simp
  · simp
  · exact Every.elementTypes unionNode_property (h _ rfl)

/-- A write under a key that is not known gives a map of all keys and all values. -/
theorem writeIndex_eq_map {c : Option Ty} {k v : Ty}
    (hc : (∃ items, shape? c = some items) ∨ ∃ key value, c = some (.map key value))
    (hk : k.literalKey? = none) :
    writeIndex c (some k) v =
      .map (some (unionOf ((heldTypes c).map Prod.fst ++ [k])))
        (unionOf ((heldTypes c).map Prod.snd ++ [v])) := by
  rcases hc with ⟨items, hitems⟩ | ⟨key, value, rfl⟩
  · rw [writeIndex_of_shape? hitems, heldTypes_of_shape? hitems, writeShape, hk, List.map_map,
      List.map_map]
    rfl
  · rfl

theorem membersOf_unionOf_held {held : List Ty} {t : Ty} (hheld : ∀ u ∈ held, u.Every UnionNode)
    (ht : t.Every UnionNode) : MembersOf (unionOf (held ++ [t])) (held ++ [t]) := by
  apply membersOf_unionOf (by simp)
  simpa [or_imp, forall_and] using ⟨hheld, ht⟩

end PhpTypes.Ty

namespace PhpTypes.Inference

open Ty

/-! Paths. -/

/-- The place of an entry within a place. -/
def entryAt (c : Option Ty) (k : Key) : Option Ty := c.bind fun t => entryOf t (ofKey k)

/-- The place at the end of a path, as it is found when something is written there. -/
def placeAt (c : Option Ty) (ks : List Key) : Option Ty := ks.foldl entryAt c

/-- The type that is read under a key. -/
def readAt (t : Ty) (k : Key) : Ty := unionOf (t.members.map fun m => readIndex m (ofKey k))

/-- The type that is read at the end of a path. -/
def readPath (t : Ty) (ks : List Key) : Ty := ks.foldl readAt t

/-- What a place holds after a write at the end of a path. -/
def writePath (v : Ty) : List Key → Option Ty → Ty
  | [], _ => v
  | k :: ks, c => writeIndex c (some (ofKey k)) (writePath v ks (entryAt c k))

theorem placeAt_append_singleton (c : Option Ty) (ks : List Key) (k : Key) :
    placeAt c (ks ++ [k]) = entryAt (placeAt c ks) k := by
  rw [placeAt, List.foldl_append]
  rfl

theorem readPath_append_singleton (t : Ty) (ks : List Key) (k : Key) :
    readPath t (ks ++ [k]) = readAt (readPath t ks) k := by
  rw [readPath, List.foldl_append]
  rfl

/-- An entry is found by its key alone. -/
theorem entryAt_array (items : List Item) (k : Key) :
    entryAt (some (.array items)) k =
      if (getItem? items k).isNone then none else some (readShape items (ofKey k)) := by
  cases k <;> rfl

/-- The last level of a write is written first. -/
theorem writePath_append_singleton (v : Ty) (ks : List Key) (k : Key) (c : Option Ty) :
    writePath v (ks ++ [k]) c =
      writePath (writeIndex (placeAt c ks) (some (ofKey k)) v) ks c := by
  induction ks generalizing c with
  | nil => rfl
  | cons l ks ih => rw [List.cons_append, writePath, writePath, ih]; rfl

private theorem unionOf_array (items : List Item) : unionOf [.array items] = .array items := rfl

private theorem readPath_unknown (ks : List Key) : readPath .unknown ks = .unknown := by
  induction ks with
  | nil => rfl
  | cons k ks ih => exact ih

private theorem readAt_empty (k : Key) : readAt (.array []) k = .unknown := by
  have hread : readShape [] (ofKey k) = .unknown := by
    cases k with
    | int n =>
      have hnone : positional? [] n = none := by simp [positional?]
      change ((positional? [] n).map Item.value).getD .unknown = _
      rw [hnone]
      rfl
    | str s => rfl
  change unionOf [readShape [] (ofKey k)] = _
  rw [hread]
  rfl

section

variable {c : Option Ty} {items : List Item} (hc : shape? c = some items) (v : Ty)
include hc

private theorem writePath_cons (k : Key) (ks : List Key) :
    writePath v (k :: ks) c = .array
      (replaceItem k (.of (some k) (writePath v ks (entryAt c k))) items) := by
  rw [writePath, writeIndex_of_shape? hc, writeShape_ofKey]

private theorem readAt_writePath_self (k : Key) (ks : List Key) :
    readAt (writePath v (k :: ks) c) k = unionOf [writePath v ks (entryAt c k)] := by
  have hread := readIndex_writeShape_self items k (writePath v ks (entryAt c k))
  rw [writeShape_ofKey] at hread
  rw [writePath_cons hc]
  exact congrArg (fun t => unionOf [t]) hread

private theorem readAt_writePath_ne {k l : Key} (h : l ≠ k) (ks : List Key) :
    readAt (writePath v (k :: ks) c) l = readAt (.array items) l := by
  have hread := readIndex_writeShape_ne items h (writePath v ks (entryAt c k))
  rw [writeShape_ofKey] at hread
  rw [writePath_cons hc]
  exact congrArg (fun t => unionOf [t]) hread

/-- A level that is written through a shape can be read on. -/
theorem readPath_writePath_cons (k : Key) {ks : List Key} (hne : ks ≠ [])
    (hentry : ∃ items, shape? (entryAt c k) = some items) (ls : List Key) :
    readPath (writePath v (k :: ks) c) (k :: ls) = readPath (writePath v ks (entryAt c k)) ls := by
  obtain ⟨l, ks, rfl⟩ := List.exists_cons_of_ne_nil hne
  obtain ⟨inner, hinner⟩ := hentry
  change readPath (readAt (writePath v (k :: l :: ks) c) k) ls = _
  rw [readAt_writePath_self hc, writePath_cons hinner, unionOf_array]

end

/-- What is written through shapes is read again. -/
theorem readPath_writePath_self {ks : List Key} (hne : ks ≠ []) {c : Option Ty}
    (hc : ∀ p, p <+: ks → p ≠ ks → ∃ items, shape? (placeAt c p) = some items) (v : Ty) :
    readPath (writePath v ks c) ks = unionOf [v] := by
  induction ks generalizing c with
  | nil => exact (hne rfl).elim
  | cons k ks ih =>
    obtain ⟨items, hitems⟩ : ∃ items, shape? c = some items :=
      hc [] List.nil_prefix (List.cons_ne_nil k ks).symm
    by_cases hks : ks = []
    · subst hks
      exact readAt_writePath_self hitems v k []
    · have hinner : ∀ p, p <+: ks → p ≠ ks →
          ∃ items, shape? (placeAt (entryAt c k) p) = some items := fun p hp hpne =>
        hc (k :: p) (List.cons_prefix_cons.mpr ⟨rfl, hp⟩) (by simpa using hpne)
      rw [readPath_writePath_cons hitems v k hks (hinner [] List.nil_prefix (Ne.symm hks))]
      exact ih hks hinner

/-! Paths that part. -/

/-- Two paths that part from each other: neither is the beginning of the other. -/
structure Apart (p q : List Key) : Prop where
  left : ¬ p <+: q
  right : ¬ q <+: p

theorem Apart.ne_nil {p q : List Key} (h : Apart p q) : p ≠ [] ∧ q ≠ [] :=
  ⟨fun hp => h.left (hp ▸ List.nil_prefix), fun hq => h.right (hq ▸ List.nil_prefix)⟩

theorem Apart.of_cons {k : Key} {p q : List Key} (h : Apart (k :: p) (k :: q)) : Apart p q :=
  ⟨fun hp => h.left (List.cons_prefix_cons.mpr ⟨rfl, hp⟩),
    fun hq => h.right (List.cons_prefix_cons.mpr ⟨rfl, hq⟩)⟩

/-- In an array that a write creates, nothing is found apart from what is written. -/
theorem readPath_writePath_none {p q : List Key} (h : Apart p q) (v : Ty) :
    readPath (writePath v p none) q = .unknown := by
  have hnone : shape? none = some [] := rfl
  induction p generalizing q with
  | nil => exact (h.ne_nil.1 rfl).elim
  | cons k p ih =>
    obtain ⟨l, q, rfl⟩ := List.exists_cons_of_ne_nil h.ne_nil.2
    by_cases hkl : l = k
    · subst hkl
      rw [readPath_writePath_cons hnone v l h.of_cons.ne_nil.1 ⟨[], rfl⟩]
      exact ih h.of_cons
    · change readPath (readAt (writePath v (k :: p) none) l) q = _
      rw [readAt_writePath_ne hnone v hkl, readAt_empty, readPath_unknown]

/-- The element at the end of a path, one level after the other. -/
def elementAt (t : Ty) (ks : List Key) : Ty := ks.foldl (fun t k => readIndex t (ofKey k)) t

/-- Where two paths go together, each level is a shape. -/
def SharedShapes (t : Ty) (p q : List Key) : Prop :=
  ∀ r, r <+: p → r <+: q → ∃ items, elementAt t r = .array items

/-- Where two paths go together, each key is that of an entry: none of them leads to an element by
its position only. -/
def SharedKeys (t : Ty) (p q : List Key) : Prop :=
  ∀ r k items, r ++ [k] <+: p → r ++ [k] <+: q → elementAt t r = .array items →
    getItem? items k ≠ none

theorem SharedShapes.of_cons {t : Ty} {k : Key} {p q : List Key}
    (h : SharedShapes t (k :: p) (k :: q)) : SharedShapes (readIndex t (ofKey k)) p q :=
  fun r hp hq => h (k :: r) (List.cons_prefix_cons.mpr ⟨rfl, hp⟩)
    (List.cons_prefix_cons.mpr ⟨rfl, hq⟩)

theorem sharedShapes_cons {items : List Item} {k : Key} {p q : List Key}
    (h : SharedShapes (readShape items (ofKey k)) p q) :
    SharedShapes (.array items) (k :: p) (k :: q) := by
  intro r hp hq
  cases r with
  | nil => exact ⟨items, rfl⟩
  | cons k' r =>
    obtain ⟨rfl, hp'⟩ := List.cons_prefix_cons.mp hp
    exact h r hp' (List.cons_prefix_cons.mp hq).2

theorem sharedShapes_of_ne (items : List Item) {k l : Key} (h : l ≠ k) (p q : List Key) :
    SharedShapes (.array items) (k :: p) (l :: q) := by
  intro r hp hq
  cases r with
  | nil => exact ⟨items, rfl⟩
  | cons k' r =>
    obtain ⟨rfl, -⟩ := List.cons_prefix_cons.mp hp
    exact (h (List.cons_prefix_cons.mp hq).1.symm).elim

theorem sharedKeys_cons {items : List Item} {k : Key} {p q : List Key} :
    SharedKeys (.array items) (k :: p) (k :: q) ↔
      getItem? items k ≠ none ∧ SharedKeys (readShape items (ofKey k)) p q := by
  constructor
  · intro h
    refine ⟨h [] k items ?_ ?_ rfl, fun r l items' hp hq => ?_⟩
    · exact List.cons_prefix_cons.mpr ⟨rfl, List.nil_prefix⟩
    · exact List.cons_prefix_cons.mpr ⟨rfl, List.nil_prefix⟩
    · exact h (k :: r) l items' (List.cons_prefix_cons.mpr ⟨rfl, hp⟩)
        (List.cons_prefix_cons.mpr ⟨rfl, hq⟩)
  · rintro ⟨hk, h⟩ r l items' hp hq hr
    cases r with
    | nil =>
      cases hr
      obtain ⟨rfl, -⟩ := List.cons_prefix_cons.mp hp
      exact hk
    | cons k' r =>
      obtain ⟨rfl, hp'⟩ := List.cons_prefix_cons.mp hp
      obtain ⟨-, hq'⟩ := List.cons_prefix_cons.mp hq
      exact h r l items' hp' hq' hr

/-- Nothing is shared by paths that part at once. -/
theorem sharedKeys_of_ne {t : Ty} {k l : Key} (h : l ≠ k) (p q : List Key) :
    SharedKeys t (k :: p) (l :: q) := by
  intro r m items hp hq
  obtain ⟨first, rest, hcons⟩ := List.exists_cons_of_ne_nil (List.append_ne_nil_of_right_ne_nil r
    (List.cons_ne_nil m []))
  rw [hcons] at hp hq
  have hk := (List.cons_prefix_cons.mp hp).1
  have hl := (List.cons_prefix_cons.mp hq).1
  exact (h (hl.symm.trans hk)).elim

/-- A write leaves what is found on a path that parts from its own, unless both go together through
an element that has only its position. Such an element is not found by the write, which puts a new
array in front of it. -/
theorem readPath_writePath_apart {p q : List Key} (h : Apart p q) {t : Ty}
    (hshapes : SharedShapes t p q) (v : Ty) :
    (SharedKeys t p q → readPath (writePath v p (some t)) q = readPath t q) ∧
      (¬ SharedKeys t p q → readPath (writePath v p (some t)) q = .unknown) := by
  -- The write and the read go down together until their keys differ. What matters at each common
  -- key is whether the write finds the element that the read finds.
  induction p generalizing q t with
  | nil => exact (h.ne_nil.1 rfl).elim
  | cons k p ih =>
    obtain ⟨l, q, rfl⟩ := List.exists_cons_of_ne_nil h.ne_nil.2
    obtain ⟨items, rfl⟩ : ∃ items, t = .array items := hshapes [] List.nil_prefix List.nil_prefix
    have hitems : shape? (some (.array items)) = some items := rfl
    by_cases hkl : l = k
    · subst hkl
      obtain ⟨inner, hinner⟩ : ∃ inner, readShape items (ofKey l) = .array inner :=
        hshapes.of_cons [] List.nil_prefix List.nil_prefix
      have hread : readPath (.array items) (l :: q) = readPath (.array inner) q := by
        change readPath (unionOf [readShape items (ofKey l)]) q = _
        rw [hinner, unionOf_array]
      rw [sharedKeys_cons]
      cases hget : getItem? items l with
      | some item =>
        have hentry : entryAt (some (.array items)) l = some (.array inner) := by
          rw [entryAt_array, hget, hinner]
          rfl
        have hshapes' : SharedShapes (.array inner) p q := hinner ▸ hshapes.of_cons
        have hrest := ih h.of_cons hshapes'
        rw [readPath_writePath_cons hitems v l h.of_cons.ne_nil.1 (by simp [hentry, shape?]),
          hentry, hread, hinner]
        simpa using hrest
      | none =>
        have hentry : entryAt (some (.array items)) l = none := by
          rw [entryAt_array, hget]
          rfl
        refine ⟨fun hkeys => (hkeys.1 rfl).elim, fun _ => ?_⟩
        rw [readPath_writePath_cons hitems v l h.of_cons.ne_nil.1 (by simp [hentry, shape?]),
          hentry]
        exact readPath_writePath_none h.of_cons v
    · refine ⟨fun _ => ?_, fun hkeys => (hkeys (sharedKeys_of_ne hkl p q)).elim⟩
      change readPath (readAt (writePath v (k :: p) _) l) q = readPath (readAt (.array items) l) q
      rw [readAt_writePath_ne hitems v hkl]

end PhpTypes.Inference
