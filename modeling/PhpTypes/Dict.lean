/-!
Dictionaries that keep the order in which their keys were first set. Setting a key again changes its
value and keeps its place.
-/

namespace PhpTypes

structure Dict (α : Type) where
  entries : List (String × α)
deriving Inhabited

namespace Dict

variable {α β : Type}

def empty : Dict α := ⟨[]⟩

def lookup (key : String) : List (String × α) → Option α
  | [] => none
  | (k, v) :: rest => if k = key then some v else lookup key rest

def assign (key : String) (value : α) : List (String × α) → List (String × α)
  | [] => [(key, value)]
  | (k, v) :: rest => if k = key then (k, value) :: rest else (k, v) :: assign key value rest

def get? (d : Dict α) (key : String) : Option α := lookup key d.entries

def contains (d : Dict α) (key : String) : Bool := (d.get? key).isSome

def set (d : Dict α) (key : String) (value : α) : Dict α := ⟨assign key value d.entries⟩

def erase (d : Dict α) (key : String) : Dict α := ⟨d.entries.filter fun e => e.1 != key⟩

def keys (d : Dict α) : List String := d.entries.map Prod.fst

def values (d : Dict α) : List α := d.entries.map Prod.snd

def size (d : Dict α) : Nat := d.entries.length

def isEmpty (d : Dict α) : Bool := d.entries.isEmpty

def map (f : α → β) (d : Dict α) : Dict β := ⟨d.entries.map fun e => (e.1, f e.2)⟩

/-- Sets the pairs one after the other. -/
def setAll (d : Dict α) (pairs : List (String × α)) : Dict α :=
  pairs.foldl (fun d p => d.set p.1 p.2) d

def ofList (pairs : List (String × α)) : Dict α := empty.setAll pairs

/-- Whether two dictionaries have the same values under the same keys, in whatever order. -/
def agrees [BEq α] (a b : Dict α) : Bool := (a.keys ++ b.keys).all fun k => a.get? k == b.get? k

@[simp]
theorem agrees_self [BEq α] [ReflBEq α] (d : Dict α) : d.agrees d = true := by
  simp [agrees]

private theorem lookup_assign_self (key : String) (value : α) (es : List (String × α)) :
    lookup key (assign key value es) = some value := by
  induction es with
  | nil => simp [assign, lookup]
  | cons e es ih =>
    obtain ⟨k, v⟩ := e
    by_cases h : k = key <;> simp [assign, lookup, h, ih]

private theorem lookup_assign_ne {key other : String} (h : other ≠ key) (value : α)
    (es : List (String × α)) : lookup other (assign key value es) = lookup other es := by
  induction es with
  | nil => simp [assign, lookup, Ne.symm h]
  | cons e es ih =>
    obtain ⟨k, v⟩ := e
    by_cases hk : k = key
    · subst hk
      simp [assign, lookup, Ne.symm h]
    · simp [assign, lookup, hk, ih]

@[simp]
theorem get?_set_self (d : Dict α) (key : String) (value : α) :
    (d.set key value).get? key = some value :=
  lookup_assign_self key value d.entries

theorem get?_set_ne (d : Dict α) {key other : String} (h : other ≠ key) (value : α) :
    (d.set key value).get? other = d.get? other :=
  lookup_assign_ne h value d.entries

/-- Setting a key to the value that it has changes nothing. -/
theorem set_of_get? {d : Dict α} {key : String} {value : α} (h : d.get? key = some value) :
    d.set key value = d := by
  obtain ⟨es⟩ := d
  refine congrArg Dict.mk ?_
  replace h : lookup key es = some value := h
  induction es with
  | nil => cases h
  | cons e es ih =>
    obtain ⟨k, v⟩ := e
    by_cases hk : k = key
    · simp only [lookup, hk, if_true, Option.some.injEq] at h
      simp [assign, hk, h]
    · simp only [lookup, hk, if_false] at h
      simp [assign, hk, ih h]

theorem get?_erase_ne (d : Dict α) {key other : String} (h : other ≠ key) :
    (d.erase key).get? other = d.get? other := by
  obtain ⟨es⟩ := d
  change lookup other (es.filter fun e => e.1 != key) = lookup other es
  induction es with
  | nil => rfl
  | cons e es ih =>
    obtain ⟨k, v⟩ := e
    by_cases hk : k = key
    · subst hk
      simp [lookup, ih, Ne.symm h]
    · simp [lookup, hk, ih]

@[simp]
theorem get?_empty (key : String) : (empty : Dict α).get? key = none := rfl

@[simp]
theorem length_values (d : Dict α) : d.values.length = d.size := by
  simp [values, size]

theorem mem_of_lookup {key : String} {value : α} {es : List (String × α)}
    (h : lookup key es = some value) : (key, value) ∈ es := by
  induction es with
  | nil => cases h
  | cons e es ih =>
    obtain ⟨k, v⟩ := e
    rw [lookup] at h
    split at h
    · rename_i hk
      cases h
      rw [hk]
      exact List.mem_cons_self
    · exact List.mem_cons_of_mem _ (ih h)

theorem mem_keys_iff {d : Dict α} {key : String} : key ∈ d.keys ↔ d.get? key ≠ none := by
  obtain ⟨es⟩ := d
  change key ∈ es.map Prod.fst ↔ lookup key es ≠ none
  induction es with
  | nil => simp [lookup]
  | cons e es ih =>
    obtain ⟨k, v⟩ := e
    by_cases hk : k = key
    · simp [lookup, hk]
    · simp [lookup, hk, Ne.symm hk, ih]

theorem mem_values_of_get? {d : Dict α} {key : String} {value : α} (h : d.get? key = some value) :
    value ∈ d.values :=
  List.mem_map.mpr ⟨(key, value), mem_of_lookup h, rfl⟩

private theorem mem_assign {key : String} {value : α} {es : List (String × α)} {e : String × α}
    (h : e ∈ assign key value es) : e = (key, value) ∨ e ∈ es := by
  induction es with
  | nil => simpa [assign] using h
  | cons e' es ih =>
    obtain ⟨k, v⟩ := e'
    rw [assign] at h
    split at h
    · rename_i hk
      rcases List.mem_cons.mp h with rfl | h
      · exact .inl (by rw [hk])
      · exact .inr (List.mem_cons_of_mem _ h)
    · rcases List.mem_cons.mp h with rfl | h
      · exact .inr List.mem_cons_self
      · exact (ih h).imp_right (List.mem_cons_of_mem _)

theorem mem_values_set {d : Dict α} {key : String} {value v : α}
    (h : v ∈ (d.set key value).values) : v = value ∨ v ∈ d.values := by
  obtain ⟨e, he, rfl⟩ := List.mem_map.mp h
  rcases mem_assign he with rfl | he
  · exact .inl rfl
  · exact .inr (List.mem_map_of_mem he)

theorem mem_values_erase {d : Dict α} {key : String} {v : α} (h : v ∈ (d.erase key).values) :
    v ∈ d.values := by
  obtain ⟨e, he, rfl⟩ := List.mem_map.mp h
  exact List.mem_map_of_mem (List.mem_filter.mp he).1

theorem mem_values_setAll {d : Dict α} {pairs : List (String × α)} {v : α}
    (h : v ∈ (d.setAll pairs).values) : v ∈ d.values ∨ v ∈ pairs.map Prod.snd := by
  induction pairs generalizing d with
  | nil => exact .inl h
  | cons p pairs ih =>
    rw [List.map_cons, List.mem_cons]
    rcases ih h with h | h
    · exact (mem_values_set h).elim (fun h => .inr (.inl h)) .inl
    · exact .inr (.inr h)

theorem values_set_of_none {d : Dict α} {key : String} (h : d.get? key = none) (value : α) :
    (d.set key value).values = d.values ++ [value] := by
  obtain ⟨es⟩ := d
  change (assign key value es).map Prod.snd = es.map Prod.snd ++ [value]
  replace h : lookup key es = none := h
  induction es with
  | nil => rfl
  | cons e es ih =>
    obtain ⟨k, v⟩ := e
    by_cases hk : k = key
    · simp [lookup, hk] at h
    · simp only [lookup, hk, if_false] at h
      simp [assign, hk, ih h]

/-- A key that is set again changes one value in its place. -/
theorem values_set_of_some {d : Dict α} {key : String} {old : α} (h : d.get? key = some old)
    (value : α) : ∃ before after, d.values = before ++ old :: after ∧
      (d.set key value).values = before ++ value :: after := by
  obtain ⟨es⟩ := d
  change ∃ before after, es.map Prod.snd = before ++ old :: after ∧
    (assign key value es).map Prod.snd = before ++ value :: after
  replace h : lookup key es = some old := h
  induction es with
  | nil => simp [lookup] at h
  | cons e es ih =>
    obtain ⟨k, v⟩ := e
    by_cases hk : k = key
    · simp only [lookup, hk, if_true, Option.some.injEq] at h
      exact ⟨[], es.map Prod.snd, by simp [h], by simp [assign, hk]⟩
    · simp only [lookup, hk, if_false] at h
      obtain ⟨before, after, hold, hnew⟩ := ih h
      exact ⟨v :: before, after, by simp [hold], by simp [assign, hk, hnew]⟩

/-- Every value stands under its own key, and no key stands twice. -/
structure KeyedBy (f : α → String) (d : Dict α) : Prop where
  key : ∀ e ∈ d.entries, e.1 = f e.2
  nodup : d.keys.Nodup

theorem keyedBy_empty (f : α → String) : (empty : Dict α).KeyedBy f :=
  ⟨fun _ h => (by cases h), List.nodup_nil⟩

private theorem mem_keys_assign {key k : String} {value : α} {es : List (String × α)}
    (h : k ∈ (assign key value es).map Prod.fst) : k = key ∨ k ∈ es.map Prod.fst := by
  obtain ⟨e, he, rfl⟩ := List.mem_map.mp h
  rcases mem_assign he with rfl | he
  · exact .inl rfl
  · exact .inr (List.mem_map_of_mem he)

private theorem nodup_keys_assign {key : String} {value : α} {es : List (String × α)}
    (h : (es.map Prod.fst).Nodup) : ((assign key value es).map Prod.fst).Nodup := by
  induction es with
  | nil => simp [assign]
  | cons e es ih =>
    obtain ⟨k, v⟩ := e
    rw [List.map_cons, List.nodup_cons] at h
    rw [assign]
    split
    · rw [List.map_cons, List.nodup_cons]
      exact h
    · rename_i hk
      rw [List.map_cons, List.nodup_cons]
      refine ⟨fun hmem => ?_, ih h.2⟩
      exact (mem_keys_assign hmem).elim hk h.1

theorem KeyedBy.set {f : α → String} {d : Dict α} (hd : d.KeyedBy f) (value : α) :
    (d.set (f value) value).KeyedBy f := by
  refine ⟨fun e he => ?_, nodup_keys_assign hd.nodup⟩
  rcases mem_assign he with rfl | he
  · rfl
  · exact hd.key e he

private theorem lookup_of_mem {es : List (String × α)} (hnd : (es.map Prod.fst).Nodup)
    {e : String × α} (he : e ∈ es) : lookup e.1 es = some e.2 := by
  induction es with
  | nil => cases he
  | cons e' es ih =>
    rw [List.map_cons, List.nodup_cons] at hnd
    rw [lookup]
    rcases List.mem_cons.mp he with rfl | he
    · simp
    · have hne : e'.1 ≠ e.1 := fun h => hnd.1 (h ▸ List.mem_map_of_mem he)
      rw [if_neg hne]
      exact ih hnd.2 he

theorem get?_of_mem {d : Dict α} (hnd : d.keys.Nodup) {key : String} {value : α}
    (h : (key, value) ∈ d.entries) : d.get? key = some value :=
  lookup_of_mem hnd h

theorem nodup_keys_set {d : Dict α} (hnd : d.keys.Nodup) (key : String) (value : α) :
    (d.set key value).keys.Nodup :=
  nodup_keys_assign hnd

theorem mem_keys_set {d : Dict α} {key k : String} {value : α} :
    k ∈ (d.set key value).keys ↔ k = key ∨ k ∈ d.keys := by
  rw [mem_keys_iff, mem_keys_iff]
  by_cases hk : k = key
  · simp [hk]
  · simp [hk, get?_set_ne d hk]

private theorem entries_set_of_not_mem {d : Dict α} {key : String} (h : key ∉ d.keys) (value : α) :
    (d.set key value).entries = d.entries ++ [(key, value)] := by
  obtain ⟨es⟩ := d
  change assign key value es = es ++ [(key, value)]
  replace h : key ∉ es.map Prod.fst := h
  induction es with
  | nil => rfl
  | cons e es ih =>
    rw [List.map_cons, List.mem_cons, not_or] at h
    rw [assign, if_neg (Ne.symm h.1), ih h.2, List.cons_append]

/-- Pairs with new and different keys are put at the end, in their order. -/
theorem entries_setAll {d : Dict α} {pairs : List (String × α)}
    (h : (d.keys ++ pairs.map Prod.fst).Nodup) : (d.setAll pairs).entries = d.entries ++ pairs := by
  induction pairs generalizing d with
  | nil => exact (List.append_nil d.entries).symm
  | cons p pairs ih =>
    obtain ⟨key, value⟩ := p
    have hkey : key ∉ d.keys := fun hmem =>
      (List.nodup_append.mp h).2.2 key hmem key List.mem_cons_self rfl
    have hentries := entries_set_of_not_mem hkey value
    have hkeys : (d.set key value).keys = d.keys ++ [key] := by
      rw [keys, hentries, List.map_append]
      rfl
    have hrest : (d.set key value).keys ++ pairs.map Prod.fst =
        d.keys ++ ((key, value) :: pairs).map Prod.fst := by
      rw [hkeys, List.append_assoc]
      rfl
    change ((d.set key value).setAll pairs).entries = _
    rw [ih (hrest ▸ h), hentries, List.append_assoc]
    rfl

theorem KeyedBy.get? {f : α → String} {d : Dict α} (hd : d.KeyedBy f) {value : α}
    (h : value ∈ d.values) : d.get? (f value) = some value := by
  obtain ⟨e, he, rfl⟩ := List.mem_map.mp h
  rw [← hd.key e he]
  exact lookup_of_mem hd.nodup he

theorem KeyedBy.eq_of_key {f : α → String} {d : Dict α} (hd : d.KeyedBy f) {a b : α}
    (ha : a ∈ d.values) (hb : b ∈ d.values) (h : f a = f b) : a = b := by
  have hget := hd.get? ha
  rw [h, hd.get? hb] at hget
  exact (Option.some.inj hget).symm

end Dict

end PhpTypes
