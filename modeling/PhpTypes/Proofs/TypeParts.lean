import PhpTypes.Ty.Arithmetic
import PhpTypes.Ty.Shape

/-!
# The parts of a type

A type is built from other types: the values of a shape, the keys and values of a map, the members
of a union or an intersection, and the parameters and the result of a function. A property of single
nodes that the basic types have, that literals within 64 bits have, and that unions have whose
members are flat and different, is handed on to all parts of what the operations on types give.
-/

namespace PhpTypes.Ty

mutual

/-- The type and all types inside it, at any depth. -/
def parts : Ty → List Ty
  | .array items => .array items :: partsOfItems items
  | .map none value => .map none value :: parts value
  | .map (some key) value => .map (some key) value :: (parts key ++ parts value)
  | .union types => .union types :: partsOfAll types
  | .intersection types => .intersection types :: partsOfAll types
  | .function result params => .function result params :: (parts result ++ partsOfAll params)
  | .unknown => [.unknown]
  | .null => [.null]
  | .boolean => [.boolean]
  | .int v => [.int v]
  | .float v => [.float v]
  | .string v => [.string v]
  | .object name declared => [.object name declared]

def partsOfAll : List Ty → List Ty
  | [] => []
  | t :: ts => parts t ++ partsOfAll ts

def partsOfItems : List Item → List Ty
  | [] => []
  | .mk _ value _ _ _ :: is => parts value ++ partsOfItems is

end

/-- A property holds of the type and of all types inside it. -/
def Every (P : Ty → Prop) (t : Ty) : Prop := ∀ u ∈ t.parts, P u

def isUnion : Ty → Bool
  | .union _ => true
  | _ => false

/-- Members that can form a union: two or more, none of them a union, all of them different. -/
structure Normal (ts : List Ty) : Prop where
  two_le : 2 ≤ ts.length
  flat : ∀ t ∈ ts, t.isUnion = false
  distinct : ts.Pairwise fun a b => same a b = false

/-- Types that are no union, no number of known value and no instance of a declared class. -/
def isPlain : Ty → Bool
  | .union _ => false
  | .int (some _) => false
  | .float (some _) => false
  | .object _ (some _) => false
  | _ => true

/-- A property of nodes that a union of normal members has, an integer within 64 bits, and a double
that is a number. -/
structure NodeProperty (P : Ty → Prop) : Prop where
  plain : ∀ {t : Ty}, t.isPlain = true → P t
  int : ∀ {n : Int}, minInt ≤ n → n ≤ maxInt → P (.int (some n))
  float : ∀ {x : Float}, x.isNaN = false → P (.float (some x))
  union : ∀ {ts : List Ty}, Normal ts → P (.union ts)

/-- The property that asks nothing. -/
theorem NodeProperty.trivial : NodeProperty fun _ => True :=
  ⟨fun _ => .intro, fun _ _ => .intro, fun _ => .intro, fun _ => .intro⟩

section

variable {P : Ty → Prop}

private theorem self_mem_parts (t : Ty) : t ∈ t.parts := by
  cases t with
  | map key value => cases key <;> simp [parts]
  | _ => simp [parts]

theorem Every.self {t : Ty} (h : Every P t) : P t := h t (self_mem_parts t)

theorem forall_partsOfAll {ts : List Ty} :
    (∀ u ∈ partsOfAll ts, P u) ↔ ∀ t ∈ ts, Every P t := by
  induction ts with
  | nil => simp [partsOfAll]
  | cons t ts ih => simp [partsOfAll, or_imp, forall_and, ih, Every]

private theorem forall_partsOfItems {items : List Item} :
    (∀ u ∈ partsOfItems items, P u) ↔ ∀ i ∈ items, Every P i.value := by
  induction items with
  | nil => simp [partsOfItems]
  | cons i is ih =>
    obtain ⟨k, v, o, d, h⟩ := i
    simp [partsOfItems, or_imp, forall_and, ih, Every, Item.value]

theorem every_array {items : List Item} :
    Every P (.array items) ↔ P (.array items) ∧ ∀ i ∈ items, Every P i.value := by
  simp [Every, parts, forall_partsOfItems]

theorem every_map {key : Option Ty} {value : Ty} :
    Every P (.map key value) ↔ P (.map key value) ∧ (∀ k ∈ key, Every P k) ∧ Every P value := by
  cases key with
  | none => simp [Every, parts]
  | some k => simp [Every, parts, or_imp, forall_and]

theorem every_union {types : List Ty} :
    Every P (.union types) ↔ P (.union types) ∧ ∀ t ∈ types, Every P t := by
  simp [Every, parts, forall_partsOfAll]

theorem every_intersection {types : List Ty} :
    Every P (.intersection types) ↔ P (.intersection types) ∧ ∀ t ∈ types, Every P t := by
  simp [Every, parts, forall_partsOfAll]

theorem every_function {result : Ty} {params : List Ty} :
    Every P (.function result params) ↔
      P (.function result params) ∧ Every P result ∧ ∀ t ∈ params, Every P t := by
  simp [Every, parts, or_imp, forall_and, forall_partsOfAll]

/-! Unions. -/

mutual

theorem mem_flatten_isUnion {u : Ty} :
    ∀ t : Ty, u ∈ flatten t → u.isUnion = false
  | .union types, h => mem_flattenAll_isUnion types (by simpa [flatten] using h)
  | .unknown, h | .null, h | .boolean, h | .int _, h | .float _, h | .string _, h | .array _, h
  | .map _ _, h | .object _ _, h | .intersection _, h | .function _ _, h => by
    rw [flatten, List.mem_singleton] at h
    · rw [h, isUnion]
      simp
    · simp

theorem mem_flattenAll_isUnion {u : Ty} :
    ∀ ts : List Ty, u ∈ flattenAll ts → u.isUnion = false
  | [], h => by simp [flattenAll] at h
  | t :: ts, h => by
    rw [flattenAll, List.mem_append] at h
    exact h.elim (mem_flatten_isUnion t) (mem_flattenAll_isUnion ts)

end

mutual

theorem Every.flatten {u : Ty} : ∀ t : Ty, Every P t → u ∈ flatten t → Every P u
  | .union types, h, hu =>
    Every.flattenAll types (every_union.mp h).2 (by simpa [Ty.flatten] using hu)
  | .unknown, h, hu | .null, h, hu | .boolean, h, hu | .int _, h, hu | .float _, h, hu
  | .string _, h, hu | .array _, h, hu | .map _ _, h, hu | .object _ _, h, hu
  | .intersection _, h, hu | .function _ _, h, hu => by
    rw [Ty.flatten, List.mem_singleton] at hu
    · exact hu ▸ h
    · simp

theorem Every.flattenAll {u : Ty} :
    ∀ ts : List Ty, (∀ t ∈ ts, Every P t) → u ∈ flattenAll ts → Every P u
  | [], _, hu => by simp [Ty.flattenAll] at hu
  | t :: ts, h, hu => by
    rw [Ty.flattenAll, List.mem_append] at hu
    refine hu.elim (Every.flatten t (h t (by simp))) (Every.flattenAll ts ?_)
    intro v hv
    exact h v (by simp [hv])

end

theorem distinctFrom_subset {u : Ty} {kept ts : List Ty} (h : u ∈ distinctFrom kept ts) :
    u ∈ ts := by
  induction ts generalizing kept with
  | nil => simp [distinctFrom] at h
  | cons t ts ih =>
    rw [distinctFrom] at h
    split at h
    · exact List.mem_cons_of_mem t (ih h)
    · rcases List.mem_cons.mp h with rfl | h
      · exact List.mem_cons_self
      · exact List.mem_cons_of_mem t (ih h)

private theorem distinctFrom_new {k u : Ty} {kept ts : List Ty} (hk : k ∈ kept)
    (h : u ∈ distinctFrom kept ts) : same k u = false := by
  induction ts generalizing kept with
  | nil => simp [distinctFrom] at h
  | cons t ts ih =>
    rw [distinctFrom] at h
    split at h
    · exact ih hk h
    · rename_i hnew
      rcases List.mem_cons.mp h with rfl | h
      · simpa using fun hs => hnew (List.any_eq_true.mpr ⟨k, hk, hs⟩)
      · exact ih (List.mem_cons_of_mem t hk) h

theorem distinctFrom_pairwise (kept ts : List Ty) :
    (distinctFrom kept ts).Pairwise fun a b => same a b = false := by
  induction ts generalizing kept with
  | nil => simp [distinctFrom]
  | cons t ts ih =>
    rw [distinctFrom]
    split
    · exact ih kept
    · exact List.pairwise_cons.mpr
        ⟨fun u hu => distinctFrom_new List.mem_cons_self hu, ih (t :: kept)⟩

private theorem every_ofMembers (hP : NodeProperty P) {ts : List Ty}
    (hflat : ∀ t ∈ ts, t.isUnion = false) (hne : ts.Pairwise fun a b => same a b = false)
    (h : ∀ t ∈ ts, Every P t) : Every P (ofMembers ts) := by
  match ts with
  | [] => simpa [Every, ofMembers, parts] using hP.plain (t := .unknown) rfl
  | [t] => exact h t (by simp)
  | a :: b :: rest =>
    refine every_union.mpr ⟨hP.union ⟨?_, hflat, hne⟩, h⟩
    simp

/-- A union of candidates has its members from the candidates, and is itself normal. -/
theorem every_unionOf (hP : NodeProperty P) {ts : List Ty} (h : ∀ t ∈ ts, Every P t) :
    Every P (unionOf ts) := by
  apply every_ofMembers hP
  · intro t ht
    exact mem_flattenAll_isUnion ts (distinctFrom_subset ht)
  · exact distinctFrom_pairwise [] (flattenAll ts)
  · intro t ht
    exact Every.flattenAll ts h (distinctFrom_subset ht)

theorem Every.member {t u : Ty} (h : Every P t) (hu : u ∈ t.members) : Every P u := by
  cases t with
  | union types => exact (every_union.mp h).2 u hu
  | _ =>
    rw [members, List.mem_singleton] at hu
    · exact hu ▸ h
    · simp

/-! Single types. -/

theorem every_leaf (hP : NodeProperty P) {t : Ty} (hp : t.isPlain = true) (hl : t.parts = [t]) :
    Every P t := by
  intro u hu
  rw [hl, List.mem_singleton] at hu
  exact hu ▸ hP.plain hp

/-- A table of plain types without parts. -/
theorem every_of_lookup (hP : NodeProperty P) {table : List (String × Ty)} {name : String} {t : Ty}
    (htable : ∀ e ∈ table, e.2.isPlain = true ∧ e.2.parts = [e.2])
    (h : table.lookup name = some t) : Every P t := by
  obtain ⟨before, after, hsplit, -⟩ := List.lookup_eq_some_iff.mp h
  obtain ⟨hplain, hparts⟩ := htable (name, t) (by simp [hsplit])
  exact every_leaf hP hplain hparts

theorem every_unknown (hP : NodeProperty P) : Every P .unknown := every_leaf hP rfl rfl

theorem every_int (hP : NodeProperty P) {n : Int} (hl : minInt ≤ n) (hu : n ≤ maxInt) :
    Every P (.int (some n)) := by
  simpa [Every, parts] using hP.int hl hu

theorem every_float (hP : NodeProperty P) {x : Float} (hx : x.isNaN = false) :
    Every P (.float (some x)) := by
  simpa [Every, parts] using hP.float hx

theorem every_arrayOf (hP : NodeProperty P) {items : List Item}
    (h : ∀ i ∈ items, Every P i.value) : Every P (.array items) :=
  every_array.mpr ⟨hP.plain rfl, h⟩

theorem every_mapOf (hP : NodeProperty P) {key : Option Ty} {value : Ty}
    (hk : ∀ k ∈ key, Every P k) (hv : Every P value) : Every P (.map key value) :=
  every_map.mpr ⟨hP.plain rfl, hk, hv⟩

theorem every_functionOf (hP : NodeProperty P) {result : Ty} {params : List Ty}
    (hr : Every P result) (hp : ∀ t ∈ params, Every P t) : Every P (.function result params) :=
  every_function.mpr ⟨hP.plain rfl, hr, hp⟩

mutual

theorem Every.widen (hP : NodeProperty P) : ∀ {t : Ty}, Every P t → Every P t.widen
  | .int _, _ => every_leaf hP rfl rfl
  | .float _, _ => every_leaf hP rfl rfl
  | .string _, _ => every_leaf hP rfl rfl
  | .union types, h =>
    every_unionOf hP (Every.widenAll hP types (every_union.mp h).2)
  | .unknown, h | .null, h | .boolean, h | .array _, h | .map _ _, h | .object _ _, h
  | .intersection _, h | .function _ _, h => by
    rw [Ty.widen]
    · exact h
    all_goals simp

theorem Every.widenAll (hP : NodeProperty P) :
    ∀ ts : List Ty, (∀ t ∈ ts, Every P t) → ∀ t ∈ widenAll ts, Every P t
  | [], _ => by simp [Ty.widenAll]
  | t :: ts, h => by
    rw [Ty.widenAll, List.forall_mem_cons]
    rw [List.forall_mem_cons] at h
    exact ⟨Every.widen hP h.1, Every.widenAll hP ts h.2⟩

end

/-! Shapes and maps. -/

theorem every_keyType (hP : NodeProperty P) (key : Option Key) : Every P (keyType key) := by
  match key with
  | none => exact every_leaf hP rfl rfl
  | some (.int n) => exact every_leaf hP rfl rfl
  | some (.str s) => exact every_leaf hP rfl rfl

private theorem mem_replaceItem {key : Key} {item i : Item} {items : List Item}
    (h : i ∈ replaceItem key item items) : i = item ∨ i ∈ items := by
  induction items with
  | nil => simpa [replaceItem] using h
  | cons j js ih =>
    rw [replaceItem] at h
    split at h
    · rcases List.mem_cons.mp h with h | h
      · exact .inl h
      · exact .inr (List.mem_cons_of_mem j h)
    · rcases List.mem_cons.mp h with h | h
      · exact .inr (h ▸ List.mem_cons_self)
      · exact (ih h).imp_right (List.mem_cons_of_mem j)

theorem mem_withItem {item i : Item} {items : List Item} (h : i ∈ withItem items item) :
    i = item ∨ i ∈ items := by
  rw [withItem] at h
  split at h
  · simpa [or_comm] using h
  · exact mem_replaceItem h

theorem every_withItem {item : Item} {items : List Item} (hi : Every P item.value)
    (h : ∀ i ∈ items, Every P i.value) : ∀ i ∈ withItem items item, Every P i.value := by
  intro i hmem
  rcases mem_withItem hmem with rfl | hmem
  · exact hi
  · exact h i hmem

private theorem positional?_mem {items : List Item} {n : Int} {i : Item}
    (h : positional? items n = some i) :
    i ∈ items := by
  rw [positional?] at h
  split at h
  · cases h
  · exact (List.mem_filter.mp (List.mem_of_getElem? h)).1

private theorem every_readShape (hP : NodeProperty P) {items : List Item}
    (h : ∀ i ∈ items, Every P i.value) (index : Ty) : Every P (readShape items index) := by
  rw [readShape]
  split
  · apply every_unionOf hP
    intro t ht
    obtain ⟨i, hi, rfl⟩ := List.mem_map.mp ht
    exact h i hi
  · split
    · rename_i item hitem
      exact h item (List.mem_of_find?_eq_some hitem)
    · split
      · rename_i n _ _
        cases hpos : positional? items n with
        | none => exact every_unknown hP
        | some i => exact h i (positional?_mem hpos)
      · exact every_unknown hP

theorem Every.readIndex (hP : NodeProperty P) {container : Ty} (h : Every P container)
    (index : Ty) : Every P (readIndex container index) := by
  cases container with
  | array items => exact every_readShape hP (every_array.mp h).2 index
  | map key value => exact (every_map.mp h).2.2
  | string v => exact every_leaf hP rfl rfl
  | _ => exact every_unknown hP

private theorem every_writeShape (hP : NodeProperty P) {items : List Item} {key : Option Ty}
    {value : Ty}
    (h : ∀ i ∈ items, Every P i.value) (hk : ∀ k ∈ key, Every P k) (hv : Every P value) :
    Every P (writeShape items key value) := by
  unfold writeShape
  split
  · exact every_arrayOf hP (every_withItem hv h)
  · rename_i k
    split
    · exact every_arrayOf hP (every_withItem hv h)
    · apply every_mapOf hP
      · rintro k' ⟨⟩
        apply every_unionOf hP
        simp only [List.mem_append, List.mem_map, List.mem_singleton]
        rintro t (⟨i, -, rfl⟩ | rfl)
        · exact every_keyType hP i.key
        · exact hk t rfl
      · apply every_unionOf hP
        simp only [List.mem_append, List.mem_map, List.mem_singleton]
        rintro t (⟨i, hi, rfl⟩ | rfl)
        · exact h i hi
        · exact hv

theorem every_writeIndex (hP : NodeProperty P) {container key : Option Ty} {value : Ty}
    (hc : ∀ c ∈ container, Every P c) (hk : ∀ k ∈ key, Every P k) (hv : Every P value) :
    Every P (writeIndex container key value) := by
  unfold writeIndex
  split
  · exact every_writeShape hP (by simp) hk hv
  · exact every_writeShape hP (by simp) hk hv
  · rename_i items
    exact every_writeShape hP (every_array.mp (hc _ rfl)).2 hk hv
  · rename_i k v
    obtain ⟨-, hkey, hval⟩ := every_map.mp (hc _ rfl)
    have hint : Every P (.int none) := every_leaf hP rfl rfl
    apply every_mapOf hP
    · intro k' hk'
      cases key with
      | none => exact hkey k' hk'
      | some t =>
        cases hk'
        apply every_unionOf hP
        simp only [List.mem_cons, List.not_mem_nil, or_false]
        rintro u (rfl | rfl)
        · cases k with
          | none => exact hint
          | some k => exact hkey k rfl
        · exact hk u rfl
    · apply every_unionOf hP
      simp only [List.mem_cons, List.not_mem_nil, or_false]
      rintro u (rfl | rfl)
      · exact hval
      · exact hv
  · exact hc _ rfl

theorem Every.elementTypes (hP : NodeProperty P) {t : Ty} (h : Every P t) :
    ∀ kv ∈ elementTypes t, Every P kv.1 ∧ Every P kv.2 := by
  cases t with
  | array items =>
    intro kv hkv
    obtain ⟨i, hi, rfl⟩ := List.mem_map.mp hkv
    exact ⟨every_keyType hP i.key, (every_array.mp h).2 i hi⟩
  | map key value =>
    obtain ⟨-, hk, hv⟩ := every_map.mp h
    intro kv hkv
    rw [List.mem_singleton.mp hkv]
    refine ⟨?_, hv⟩
    cases key with
    | none => exact every_leaf hP rfl rfl
    | some k => exact hk k rfl
  | _ =>
    intro kv hkv
    rw [List.mem_singleton.mp hkv]
    exact ⟨every_unknown hP, every_unknown hP⟩

theorem Every.iterate (hP : NodeProperty P) {t : Ty} (h : Every P t) :
    Every P (iterate t).1 ∧ Every P (iterate t).2 := by
  have hall : ∀ kv ∈ t.members.flatMap Ty.elementTypes, Every P kv.1 ∧ Every P kv.2 := by
    intro kv hkv
    obtain ⟨m, hm, hkv⟩ := List.mem_flatMap.mp hkv
    exact (h.member hm).elementTypes hP kv hkv
  constructor
  · apply every_unionOf hP
    intro u hu
    obtain ⟨kv, hkv, rfl⟩ := List.mem_map.mp hu
    exact (hall kv hkv).1
  · apply every_unionOf hP
    intro u hu
    obtain ⟨kv, hkv, rfl⟩ := List.mem_map.mp hu
    exact (hall kv hkv).2

/-! Operators. -/

theorem every_ofNumber? (hP : NodeProperty P) {n : Number} {t : Ty} (h : ofNumber? n = some t) :
    Every P t := by
  have hfloat : ∀ {x : Float}, ofFloat? x = some t → Every P t := by
    intro x hx
    rw [ofFloat?] at hx
    split at hx
    · rename_i hfinite
      cases hx
      exact every_float hP (Decimal.isNaN_of_isFinite hfinite)
    · cases hx
  cases n with
  | int n =>
    rw [ofNumber?] at h
    split at h
    · rename_i hrange
      cases h
      exact every_int hP hrange.1 hrange.2
    · exact hfloat h
  | float x => exact hfloat h

theorem every_ofNumber?_getD (hP : NodeProperty P) (n : Number) {fallback : Ty}
    (h : Every P fallback) : Every P ((ofNumber? n).getD fallback) := by
  cases hn : ofNumber? n with
  | none => exact h
  | some t => exact every_ofNumber? hP hn

theorem every_intOrFloat (hP : NodeProperty P) : Every P intOrFloat := by
  refine every_union.mpr ⟨hP.union ⟨by simp, ?_, ?_⟩, ?_⟩
  · simp [isUnion]
  · simp [same]
  · simp only [List.mem_cons, List.not_mem_nil, or_false]
    rintro t (rfl | rfl) <;> exact every_leaf hP rfl rfl

private theorem every_wideArithmetic (hP : NodeProperty P) (op : Source.BinaryOp)
    (left right : Ty) : Every P (wideArithmetic op left right) := by
  have hint : Every P (.int none) := every_leaf hP rfl rfl
  have hfloat : Every P (.float none) := every_leaf hP rfl rfl
  unfold wideArithmetic
  repeat' split
  all_goals first | exact hint | exact hfloat | exact every_intOrFloat hP

private theorem every_arithmetic (hP : NodeProperty P) (op : Source.BinaryOp) (left right : Ty) :
    Every P (arithmetic op left right) := by
  unfold arithmetic
  split
  · unfold foldedArithmetic
    split
    · exact every_ofNumber?_getD hP _ (every_leaf hP rfl rfl)
    · split
      · exact every_leaf hP rfl rfl
      · exact every_wideArithmetic hP op left right
  · exact every_wideArithmetic hP op left right

private theorem toInt_range (x : BitVec 64) : minInt ≤ x.toInt ∧ x.toInt ≤ maxInt := by
  have hl := BitVec.le_toInt x
  have hu := BitVec.toInt_lt (x := x)
  simp only [minInt, maxInt]
  omega

private theorem bitwise?_range {op : Source.BinaryOp} {a b n : Int} (h : bitwise? op a b = some n) :
    minInt ≤ n ∧ n ≤ maxInt := by
  cases op <;> simp only [bitwise?, reduceCtorEq] at h
  case bitAnd | bitOr | bitXor =>
    cases h
    exact toInt_range _
  case shiftLeft | shiftRight =>
    split at h
    · cases h
      exact toInt_range _
    · cases h

private theorem every_bitwise (hP : NodeProperty P) (op : Source.BinaryOp) (left right : Ty) :
    Every P (bitwise op left right) := by
  unfold bitwise
  split
  · rename_i a b _ _
    cases h : bitwise? op a b with
    | none => exact every_leaf hP rfl rfl
    | some n => exact every_int hP (bitwise?_range h).1 (bitwise?_range h).2
  · exact every_leaf hP rfl rfl

private theorem every_concat (hP : NodeProperty P) (left right : Ty) :
    Every P (concat left right) := by
  unfold concat
  split <;> exact every_leaf hP rfl rfl

private theorem every_coalesce (hP : NodeProperty P) {left right : Ty} (hl : Every P left)
    (hr : Every P right) : Every P (coalesce left right) := by
  apply every_unionOf hP
  intro t ht
  rcases List.mem_append.mp ht with ht | ht
  · exact hl.member (List.mem_filter.mp ht).1
  · exact List.mem_singleton.mp ht ▸ hr

theorem every_binary (hP : NodeProperty P) (op : Source.BinaryOp) {left right : Ty}
    (hl : Every P left) (hr : Every P right) : Every P (binary op left right) := by
  cases op
  case coalesce => exact every_coalesce hP hl hr
  case concat => exact every_concat hP left right
  case bitOr | bitXor | bitAnd | shiftLeft | shiftRight => exact every_bitwise hP _ left right
  case add | sub | mul | div | mod | pow => exact every_arithmetic hP _ left right
  all_goals exact every_leaf hP rfl rfl

private theorem every_signed (hP : NodeProperty P) (change : Number → Number) {t : Ty}
    (h : Every P t) : Every P (signed change t) := by
  unfold signed
  split
  · exact every_ofNumber?_getD hP _ (h.widen hP)
  · split
    · exact h
    · exact every_intOrFloat hP

theorem every_unary (hP : NodeProperty P) (op : Source.UnaryOp) {t : Ty} (h : Every P t) :
    Every P (unary op t) := by
  cases op
  case minus => exact every_signed hP _ h
  case plus => exact every_signed hP _ h
  case silence => exact h
  case print => exact every_int hP (by decide) (by decide)
  all_goals exact every_leaf hP rfl rfl

end

end PhpTypes.Ty
