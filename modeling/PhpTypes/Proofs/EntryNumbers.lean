import PhpTypes.OpenApi.FromType
import PhpTypes.Proofs.ArrayShapes

/-!
# Numbers of entries

Entries that are written one after the other form a shape, in which a later entry takes the place of
an earlier one with the same key. An entry without a key can be spoken of in two ways: by its
position among all such entries, and by its number, which is the integer after the largest one that
was given before. The first is used for reads, the second for the properties of a schema. They agree
where each entry without a key has its position for a number, or is hidden under both.
-/

namespace PhpTypes.Ty

/-! Shapes. -/

/-- The shape of entries that are written one after the other. -/
def shapeOf (entries : List Item) : List Item := entries.foldl withItem []

/-- The last entry that is written with a key. -/
def lastKeyed (entries : List Item) (key : Key) : Option Item :=
  (entries.filter fun i => i.key = some key).getLast?

/-- The keys that entries are written with. -/
def keysOf (entries : List Item) : List Key := entries.filterMap Item.key

theorem shapeOf_append_singleton (entries : List Item) (e : Item) :
    shapeOf (entries ++ [e]) = withItem (shapeOf entries) e := by
  rw [shapeOf, List.foldl_append]
  rfl

private theorem withItem_of_key {items : List Item} {item : Item} {key : Key}
    (h : item.key = some key) : withItem items item = replaceItem key item items := by
  rw [withItem, h]

private theorem withItem_of_no_key {items : List Item} {item : Item} (h : item.key = none) :
    withItem items item = items ++ [item] := by
  rw [withItem, h]

private theorem lastKeyed_append_singleton (entries : List Item) (e : Item) (key : Key) :
    lastKeyed (entries ++ [e]) key =
      if e.key = some key then some e else lastKeyed entries key := by
  by_cases h : e.key = some key <;> simp [lastKeyed, h]

private theorem mem_keysOf {entries : List Item} {key : Key} :
    key ∈ keysOf entries ↔ ∃ e ∈ entries, e.key = some key := by
  simp [keysOf]

private theorem mem_keysOf_cons {e : Item} {entries : List Item} {key : Key} :
    key ∈ keysOf (e :: entries) ↔ e.key = some key ∨ key ∈ keysOf entries := by
  simp [mem_keysOf]

private theorem lastKeyed_eq_none_iff {entries : List Item} {key : Key} :
    lastKeyed entries key = none ↔ key ∉ keysOf entries := by
  simp [lastKeyed, mem_keysOf]

/-- The entry of a key in a shape is the last one that was written with it. -/
theorem getItem?_shapeOf (entries : List Item) (key : Key) :
    getItem? (shapeOf entries) key = lastKeyed entries key := by
  induction entries using List.reverseRecOn with
  | nil => rfl
  | append_singleton entries e ih =>
    rw [shapeOf_append_singleton, lastKeyed_append_singleton]
    cases he : e.key with
    | none =>
      have hlast : getItem? [e] key = none := by simp [getItem?, he]
      rw [withItem_of_no_key he, getItem?, List.find?_append, ← getItem?, ih, ← getItem?, hlast]
      simp
    | some k =>
      rw [withItem_of_key he]
      by_cases hk : key = k
      · subst hk
        rw [getItem?_replaceItem_self he, if_pos rfl]
      · rw [getItem?_replaceItem_ne he _ hk, ih, if_neg]
        simpa using Ne.symm hk

private theorem filter_shapeOf (entries : List Item) :
    (shapeOf entries).filter (fun i => i.key.isNone) = entries.filter fun i => i.key.isNone := by
  induction entries using List.reverseRecOn with
  | nil => rfl
  | append_singleton entries e ih =>
    rw [shapeOf_append_singleton, List.filter_append, ← ih]
    cases he : e.key with
    | none => rw [withItem_of_no_key he, List.filter_append]
    | some k =>
      rw [withItem_of_key he, filter_replaceItem he]
      simp [he]

/-- A read finds the last entry of the key, and else the entry at the position. -/
theorem readShape_shapeOf (entries : List Item) (k : Int) :
    readShape (shapeOf entries) (.int (some k)) =
      (((lastKeyed entries (.int k)).or (positional? entries k)).map Item.value).getD .unknown := by
  have hposition : positional? (shapeOf entries) k = positional? entries k := by
    rw [positional?, positional?, filter_shapeOf]
  have hkey : literalKey? (.int (some k)) = some (.int k) := rfl
  rw [readShape, hkey]
  simp only [getItem?_shapeOf, hposition]
  cases lastKeyed entries (.int k) <;> rfl

/-! Keys in a shape. -/

private theorem replaceItem_of_new {key : Key} {item : Item} {items : List Item}
    (h : key ∉ keysOf items) : replaceItem key item items = items ++ [item] := by
  induction items with
  | nil => rfl
  | cons i is ih =>
    rw [mem_keysOf_cons, not_or] at h
    rw [replaceItem, if_neg h.1, ih h.2, List.cons_append]

private theorem keysOf_replaceItem {key : Key} {item : Item} (hitem : item.key = some key)
    {items : List Item} (h : key ∈ keysOf items) :
    keysOf (replaceItem key item items) = keysOf items := by
  induction items with
  | nil => cases h
  | cons i is ih =>
    rw [replaceItem]
    by_cases hi : i.key = some key
    · simp [keysOf, hi, hitem]
    · have hrest : (replaceItem key item is).filterMap Item.key = is.filterMap Item.key :=
        ih ((mem_keysOf_cons.mp h).resolve_left hi)
      rw [if_neg hi, keysOf, keysOf, List.filterMap_cons, List.filterMap_cons, hrest]

/-- No key occurs twice in a shape. -/
theorem nodup_keysOf_shapeOf (entries : List Item) : (keysOf (shapeOf entries)).Nodup := by
  induction entries using List.reverseRecOn with
  | nil => exact List.nodup_nil
  | append_singleton entries e ih =>
    rw [shapeOf_append_singleton]
    cases he : e.key with
    | none => simpa [withItem_of_no_key he, keysOf, he] using ih
    | some key =>
      rw [withItem_of_key he]
      by_cases hkey : key ∈ keysOf (shapeOf entries)
      · rwa [keysOf_replaceItem he hkey]
      · have hnew : keysOf (shapeOf entries ++ [e]) = keysOf (shapeOf entries) ++ [key] := by
          simp [keysOf, he]
        rw [replaceItem_of_new hkey, hnew, List.nodup_append]
        simpa [ih] using fun k hk (h : k = key) => hkey (h ▸ hk)

private theorem lastKeyed_of_nodup {items : List Item} (h : (keysOf items).Nodup) (key : Key) :
    lastKeyed items key = getItem? items key := by
  induction items with
  | nil => rfl
  | cons i is ih =>
    rw [getItem?_cons]
    cases hi : i.key with
    | none =>
      have hrest : (keysOf is).Nodup := by simpa [keysOf, hi] using h
      rw [if_neg (by simp), ← ih hrest]
      simp [lastKeyed, hi]
    | some k =>
      have hnodup : k ∉ keysOf is ∧ (keysOf is).Nodup := by simpa [keysOf, hi] using h
      by_cases hk : k = key
      · subst hk
        have hnone : is.filter (fun i => i.key = some k) = [] := by
          simpa [mem_keysOf] using hnodup.1
        simp [lastKeyed, hi, hnone]
      · rw [if_neg (by simpa using hk), ← ih hnodup.2]
        simp [lastKeyed, hi, hk]

end PhpTypes.Ty

namespace PhpTypes.OpenApi

open Ty

/-! Numbers. -/

/-- The entries with their numbers, or their own keys, if `next` is the next free number. -/
def numbered (next : Int) : List Item → List (Key × Item)
  | [] => []
  | i :: is => ((numberKey next i.key).1, i) :: numbered (numberKey next i.key).2 is

/-- The next free number after some entries. -/
def nextNumber (next : Int) : List Item → Int
  | [] => next
  | i :: is => nextNumber (numberKey next i.key).2 is

/-- The last entry that has a number or a key. -/
def lastNumbered (entries : List Item) (key : Key) : Option Item :=
  (((numbered 0 entries).filter fun e => e.1 = key).getLast?).map Prod.snd

/-- The numbers of the entries without a key. -/
def positionNumbers (next : Int) (entries : List Item) : List Key :=
  ((numbered next entries).filter fun e => e.2.key.isNone).map Prod.fst

private theorem numbered_append (next : Int) (es fs : List Item) :
    numbered next (es ++ fs) = numbered next es ++ numbered (nextNumber next es) fs := by
  induction es generalizing next with
  | nil => rfl
  | cons e es ih => rw [List.cons_append, numbered, numbered, nextNumber, ih, List.cons_append]

theorem map_snd_numbered (next : Int) (es : List Item) :
    (numbered next es).map Prod.snd = es := by
  induction es generalizing next with
  | nil => rfl
  | cons e es ih => rw [numbered, List.map_cons, ih]

theorem le_numberKey (next : Int) (key : Option Key) : next ≤ (numberKey next key).2 := by
  unfold numberKey
  split <;> dsimp only <;> omega

private theorem le_nextNumber (next : Int) (es : List Item) : next ≤ nextNumber next es := by
  induction es generalizing next with
  | nil => exact Int.le_refl next
  | cons e es ih => exact Int.le_trans (le_numberKey next e.key) (ih _)

private theorem numberKey_lt {next n : Int} {key : Option Key}
    (h : (numberKey next key).1 = .int n) : n < (numberKey next key).2 := by
  unfold numberKey at h ⊢
  split at h
  · cases h
    dsimp only
    omega
  · cases h
    dsimp only
    omega
  · simp_all

private theorem lt_nextNumber {next n : Int} {e : Item} {es : List Item}
    (h : (.int n, e) ∈ numbered next es) : n < nextNumber next es := by
  induction es generalizing next with
  | nil => cases h
  | cons i is ih =>
    rw [numbered, List.mem_cons] at h
    rw [nextNumber]
    rcases h with h | h
    · have hkey : (numberKey next i.key).1 = .int n := (congrArg Prod.fst h).symm
      exact Int.lt_of_lt_of_le (numberKey_lt hkey) (le_nextNumber _ is)
    · exact ih h

/-- An entry with a key keeps it. -/
theorem numberKey_some (next : Int) (key : Key) : (numberKey next (some key)).1 = key := by
  cases key <;> rfl

private theorem mem_numbered_of_key {e : Item} {es : List Item} {key : Key} (he : e ∈ es)
    (hkey : e.key = some key) (next : Int) : (key, e) ∈ numbered next es := by
  induction es generalizing next with
  | nil => cases he
  | cons i is ih =>
    rw [numbered, List.mem_cons]
    rcases List.mem_cons.mp he with rfl | he
    · left
      rw [hkey, numberKey_some]
    · right
      exact ih he _

private theorem lastNumbered_append_singleton (es : List Item) (e : Item) (key : Key) :
    lastNumbered (es ++ [e]) key =
      if (numberKey (nextNumber 0 es) e.key).1 = key then some e else lastNumbered es key := by
  have hsnoc : numbered 0 (es ++ [e]) =
      numbered 0 es ++ [((numberKey (nextNumber 0 es) e.key).1, e)] := numbered_append 0 es [e]
  by_cases h : (numberKey (nextNumber 0 es) e.key).1 = key <;>
    simp [lastNumbered, hsnoc, h]

/-- The number of an entry is larger than all keys before it, so an entry with a key is never
followed by one that gets this key for a number. -/
theorem lastNumbered_of_lastKeyed {es : List Item} {key : Key} {e : Item}
    (h : lastKeyed es key = some e) : lastNumbered es key = some e := by
  induction es using List.reverseRecOn with
  | nil => cases h
  | append_singleton es i ih =>
    rw [lastKeyed_append_singleton] at h
    rw [lastNumbered_append_singleton]
    cases hi : i.key with
    | some k =>
      rw [hi] at h
      rw [numberKey_some]
      by_cases hk : k = key
      · rw [if_pos (congrArg some hk)] at h
        rw [if_pos hk, h]
      · rw [if_neg (by simpa using hk)] at h
        rw [if_neg hk, ih h]
    | none =>
      rw [hi, if_neg (by simp)] at h
      have hmem : e ∈ es.filter fun i => i.key = some key := List.mem_of_getLast? h
      have hfound : (key, e) ∈ numbered 0 es := by
        simp only [List.mem_filter, decide_eq_true_eq] at hmem
        exact mem_numbered_of_key hmem.1 hmem.2 0
      rw [if_neg, ih h]
      intro hnumber
      have hlt := lt_nextNumber (hnumber ▸ hfound)
      omega

/-! Positions. -/

private theorem positionNumbers_append_singleton (next : Int) (es : List Item) (e : Item) :
    positionNumbers next (es ++ [e]) = positionNumbers next es ++
      if e.key.isNone then [.int (nextNumber next es)] else [] := by
  rw [positionNumbers, numbered_append, List.filter_append, List.map_append, positionNumbers]
  cases he : e.key with
  | none => simp [numbered, he, numberKey]
  | some key => simp [numbered, he]

private theorem length_positionNumbers (next : Int) (es : List Item) :
    (positionNumbers next es).length = (es.filter fun i => i.key.isNone).length := by
  have hsnd := congrArg (List.filter fun i : Item => i.key.isNone) (map_snd_numbered next es)
  rw [List.filter_map] at hsnd
  rw [positionNumbers, List.length_map, ← hsnd, List.length_map]
  rfl

private theorem positional?_append_singleton (es : List Item) (e : Item) (k : Int) :
    positional? (es ++ [e]) k =
      if e.key = none ∧ k = (positionNumbers 0 es).length then some e else positional? es k := by
  rw [length_positionNumbers, positional?, positional?, List.filter_append]
  by_cases hk : k < 0
  · rw [if_pos hk, if_pos hk, if_neg]
    omega
  · rw [if_neg hk, if_neg hk]
    cases he : e.key with
    | some key => simp [he]
    | none =>
      obtain ⟨n, rfl⟩ := Int.eq_ofNat_of_zero_le (Int.not_lt.mp hk)
      by_cases hn : n = (es.filter fun i => i.key.isNone).length
      · subst hn
        simp [he]
      · have hne : ¬ (n : Int) = (es.filter fun i => i.key.isNone).length := by omega
        simp only [true_and, if_neg hne, he, Option.isNone_none, List.filter_cons_of_pos,
          List.filter_nil, Int.toNat_natCast]
        rcases Nat.lt_or_gt_of_ne hn with hlt | hgt
        · rw [List.getElem?_append_left hlt]
        · have hout : (es.filter fun i => i.key.isNone).length ≤ n := Nat.le_of_lt hgt
          have hsnoc : ((es.filter fun i => i.key.isNone) ++ [e]).length ≤ n := by
            rw [List.length_append, List.length_singleton]
            omega
          rw [List.getElem?_eq_none hout, List.getElem?_eq_none hsnoc]

/-- Each entry without a key has its position for a number, or is hidden: its number and its
position are keys of other entries. -/
def Aligned (entries : List Item) : Prop :=
  ∀ (p : Nat) key, (positionNumbers 0 entries)[p]? = some key → key = .int p ∨
    key ∈ keysOf entries ∧ .int p ∈ keysOf entries

/-- For the induction the keys that hide entries are given apart from the entries. -/
theorem lastNumbered_eq_positional? {hidden : Key → Prop} {es : List Item}
    (haligned : ∀ (p : Nat) key, (positionNumbers 0 es)[p]? = some key →
      key = .int p ∨ hidden key ∧ hidden (.int p))
    {k : Int} (hk : ¬ hidden (.int k)) (hkey : lastKeyed es (.int k) = none) :
    lastNumbered es (.int k) = positional? es k := by
  induction es using List.reverseRecOn with
  | nil => simp [lastNumbered, numbered, positional?]
  | append_singleton es e ih =>
    have hbefore : ∀ (p : Nat) key, (positionNumbers 0 es)[p]? = some key →
        key = .int p ∨ hidden key ∧ hidden (.int p) := by
      intro p key hp
      apply haligned p key
      rw [positionNumbers_append_singleton, List.getElem?_append_left]
      · exact hp
      · exact (List.getElem?_eq_some_iff.mp hp).1
    rw [lastKeyed_append_singleton] at hkey
    rw [lastNumbered_append_singleton, positional?_append_singleton]
    cases he : e.key with
    | some key =>
      by_cases heq : key = .int k
      · rw [he, heq, if_pos rfl] at hkey
        cases hkey
      · rw [he, if_neg (by simpa using heq)] at hkey
        rw [numberKey_some, if_neg heq, ih hbefore hkey]
        simp
    | none =>
      rw [he, if_neg (by simp)] at hkey
      have hlast : (positionNumbers 0 (es ++ [e]))[(positionNumbers 0 es).length]? =
          some (.int (nextNumber 0 es)) := by
        simp [positionNumbers_append_singleton, he]
      have hnumber : (numberKey (nextNumber 0 es) none).1 = .int (nextNumber 0 es) := rfl
      rw [hnumber, ih hbefore hkey]
      rcases haligned _ _ hlast with hsame | ⟨hfirst, hsecond⟩
      · simp [hsame, eq_comm]
      · have hne : Key.int (nextNumber 0 es) ≠ .int k := fun h => hk (h ▸ hfirst)
        have hne' : k ≠ (positionNumbers 0 es).length := fun h => hk (h ▸ hsecond)
        simp [hne, hne']

/-- Where numbers and positions agree, a read finds the last entry with that number. -/
theorem readShape_of_aligned {entries : List Item} (h : Aligned entries) (k : Int) :
    readShape (shapeOf entries) (.int (some k)) =
      ((lastNumbered entries (.int k)).map Item.value).getD .unknown := by
  rw [readShape_shapeOf]
  cases hkey : lastKeyed entries (.int k) with
  | some e => rw [lastNumbered_of_lastKeyed hkey, Option.some_or]
  | none =>
    have hhidden := lastKeyed_eq_none_iff.mp hkey
    rw [lastNumbered_eq_positional? h hhidden hkey, Option.none_or]

/-! Numbers in a shape. -/

private theorem nextNumber_append (next : Int) (es fs : List Item) :
    nextNumber next (es ++ fs) = nextNumber (nextNumber next es) fs := by
  induction es generalizing next with
  | nil => rfl
  | cons e es ih => rw [List.cons_append, nextNumber, nextNumber, ih]

section

variable {key : Key} {item : Item} (hitem : item.key = some key) {items : List Item}
  (hkey : key ∈ keysOf items)
include hitem hkey

/-- A new entry with a key that is there already changes no other number. -/
theorem nextNumber_replaceItem (next : Int) :
    nextNumber next (replaceItem key item items) = nextNumber next items := by
  induction items generalizing next with
  | nil => cases hkey
  | cons i is ih =>
    rw [replaceItem]
    by_cases hi : i.key = some key
    · rw [if_pos hi, nextNumber, nextNumber, hi, hitem]
    · have hrest := (mem_keysOf_cons.mp hkey).resolve_left hi
      rw [if_neg hi, nextNumber, nextNumber, ih hrest]

private theorem filter_numbered_replaceItem {other : Key} (hother : other ≠ key) (next : Int) :
    (numbered next (replaceItem key item items)).filter (fun e => e.1 = other) =
      (numbered next items).filter fun e => e.1 = other := by
  induction items generalizing next with
  | nil => cases hkey
  | cons i is ih =>
    rw [replaceItem]
    by_cases hi : i.key = some key
    · simp [numbered, hi, hitem, numberKey_some, Ne.symm hother]
    · have hrest := (mem_keysOf_cons.mp hkey).resolve_left hi
      rw [if_neg hi, numbered, numbered, List.filter_cons, List.filter_cons, ih hrest]

end

private theorem nextNumber_shapeOf (es : List Item) :
    nextNumber 0 (shapeOf es) = nextNumber 0 es := by
  induction es using List.reverseRecOn with
  | nil => rfl
  | append_singleton es e ih =>
    rw [shapeOf_append_singleton, nextNumber_append]
    cases he : e.key with
    | none => rw [withItem_of_no_key he, nextNumber_append, ih]
    | some key =>
      rw [withItem_of_key he]
      by_cases hkey : key ∈ keysOf (shapeOf es)
      · -- The key is less than the next number already.
        obtain ⟨i, hi, hikey⟩ := mem_keysOf.mp hkey
        have hnumber := mem_numbered_of_key hi hikey 0
        rw [nextNumber_replaceItem he hkey, nextNumber, nextNumber, he, ih]
        cases key with
        | str text => rfl
        | int n =>
          have hlt := lt_nextNumber hnumber
          rw [ih] at hlt
          exact (Int.max_eq_left (by omega)).symm
      · rw [replaceItem_of_new hkey, nextNumber_append, ih]

/-- The shape of entries has the same entry under a number as the entries themselves. -/
theorem lastNumbered_shapeOf (es : List Item) (key : Key) :
    lastNumbered (shapeOf es) key = lastNumbered es key := by
  induction es using List.reverseRecOn with
  | nil => rfl
  | append_singleton es e ih =>
    rw [lastNumbered_append_singleton]
    cases he : e.key with
    | none =>
      rw [shapeOf_append_singleton, withItem_of_no_key he, lastNumbered_append_singleton,
        nextNumber_shapeOf, he, ih]
    | some k =>
      rw [numberKey_some]
      by_cases hkey : key = k
      · subst hkey
        have hnodup := nodup_keysOf_shapeOf (es ++ [e])
        have hget : getItem? (shapeOf (es ++ [e])) key = some e := by
          rw [getItem?_shapeOf, lastKeyed_append_singleton, if_pos he]
        rw [if_pos rfl]
        exact lastNumbered_of_lastKeyed ((lastKeyed_of_nodup hnodup key).trans hget)
      · rw [if_neg (Ne.symm hkey), ← ih, shapeOf_append_singleton, withItem_of_key he]
        by_cases hold : k ∈ keysOf (shapeOf es)
        · rw [lastNumbered, filter_numbered_replaceItem he hold hkey, lastNumbered]
        · rw [replaceItem_of_new hold, lastNumbered_append_singleton, he, numberKey_some,
            if_neg (Ne.symm hkey)]

end PhpTypes.OpenApi
