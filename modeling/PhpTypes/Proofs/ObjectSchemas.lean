import PhpTypes.Proofs.ArrayLiterals
import PhpTypes.Proofs.SchemaReferences

/-!
# Object schemas

A shape that is no list is written as an object. Its properties are named by the keys of the entries
and by the numbers of those without a key. Entries that have the same name share a property, but the
name is listed as required once for each of them. This happens where the number of an entry is the
key of another one, and where a key is a text that reads as an integer key or as a number.
-/

namespace PhpTypes

private theorem Dict.mem_keys_setAll {α : Type} {d : Dict α} {pairs : List (String × α)}
    {name : String} : name ∈ (d.setAll pairs).keys ↔ name ∈ d.keys ∨ name ∈ pairs.map Prod.fst := by
  induction pairs generalizing d with
  | nil => simp [setAll]
  | cons p pairs ih =>
    have hset : d.setAll (p :: pairs) = (d.set p.1 p.2).setAll pairs := rfl
    rw [hset, ih, mem_keys_set, List.map_cons, List.mem_cons]
    tauto

namespace OpenApi

open Ty

/-! Names. -/

/-- The names that the entries of a shape have as properties. -/
def namesOf (items : List Item) : List String := (numbered 0 items).map fun e => e.1.text

/-- The last entry that is written under a name. -/
def lastNamed (items : List Item) (name : String) : Option Item :=
  (((numbered 0 items).filter fun e => e.1.text = name).getLast?).map Prod.snd

/-- No number is the key of an entry, and no key is the text of an integer key or of a number. -/
structure Separate (items : List Item) : Prop where
  numbers : ∀ key ∈ positionNumbers 0 items, key ∉ keysOf items
  texts : ∀ n : Int, .int n ∈ (numbered 0 items).map Prod.fst → .str (toString n) ∉ keysOf items

section

variable {i : Item} {is : List Item}

private theorem positionNumbers_cons_of_no_key (h : i.key = none) (next : Int) :
    positionNumbers next (i :: is) = .int next :: positionNumbers (next + 1) is := by
  simp [positionNumbers, numbered, numberKey, h]

private theorem positionNumbers_cons_of_key {key : Key} (h : i.key = some key) (next : Int) :
    positionNumbers next (i :: is) = positionNumbers (numberKey next (some key)).2 is := by
  simp [positionNumbers, numbered, h]

end

private theorem le_of_mem_positionNumbers {next : Int} {key : Key} {items : List Item}
    (h : key ∈ positionNumbers next items) : ∃ n, key = .int n ∧ next ≤ n := by
  induction items generalizing next with
  | nil => cases h
  | cons i is ih =>
    cases hi : i.key with
    | none =>
      rw [positionNumbers_cons_of_no_key hi, List.mem_cons] at h
      rcases h with h | h
      · exact ⟨next, h, Int.le_refl next⟩
      · obtain ⟨n, hkey, hn⟩ := ih h
        exact ⟨n, hkey, by omega⟩
    | some k =>
      rw [positionNumbers_cons_of_key hi] at h
      obtain ⟨n, hkey, hn⟩ := ih h
      exact ⟨n, hkey, Int.le_trans (le_numberKey next (some k)) hn⟩

/-- No two entries have the same number. -/
theorem nodup_positionNumbers (next : Int) (items : List Item) :
    (positionNumbers next items).Nodup := by
  induction items generalizing next with
  | nil => exact List.nodup_nil
  | cons i is ih =>
    cases hi : i.key with
    | none =>
      rw [positionNumbers_cons_of_no_key hi, List.nodup_cons]
      constructor
      · intro hmem
        obtain ⟨n, hkey, hn⟩ := le_of_mem_positionNumbers hmem
        cases hkey
        omega
      · exact ih (next + 1)
    | some k =>
      rw [positionNumbers_cons_of_key hi]
      exact ih _

/-- Up to their order, the keys that entries are written under are numbers and own keys. -/
theorem perm_numbered (next : Int) (items : List Item) :
    ((numbered next items).map Prod.fst).Perm (positionNumbers next items ++ keysOf items) := by
  induction items generalizing next with
  | nil => exact .nil
  | cons i is ih =>
    rw [numbered, List.map_cons]
    cases hi : i.key with
    | none =>
      have hkeys : keysOf (i :: is) = keysOf is := by simp [keysOf, hi]
      rw [positionNumbers_cons_of_no_key hi, hkeys, List.cons_append]
      exact (ih (next + 1)).cons _
    | some k =>
      have hkeys : keysOf (i :: is) = k :: keysOf is := by simp [keysOf, hi]
      rw [positionNumbers_cons_of_key hi, hkeys, numberKey_some]
      exact ((ih _).cons k).trans List.perm_middle.symm

private theorem str_mem_numbered {items : List Item} {text : String} :
    .str text ∈ (numbered 0 items).map Prod.fst ↔ .str text ∈ keysOf items := by
  rw [(perm_numbered 0 items).mem_iff, List.mem_append]
  constructor
  · intro h
    rcases h with h | h
    · obtain ⟨n, hkey, -⟩ := le_of_mem_positionNumbers h
      cases hkey
    · exact h
  · exact .inr

private theorem natText_inj {a b : Nat} (h : a.repr = b.repr) : a = b := by
  have hvalue := congrArg (fun s : String => Text.readDigits 10 s.toList) h
  simpa [Nat.toList_repr, Text.readDigits_toDigits] using hvalue

private theorem natText_ne_minus (a b : Nat) : a.repr ≠ "-" ++ b.repr := by
  intro h
  have hminus : '-' ∈ Nat.toDigits 10 a := by
    rw [← Nat.toList_repr, h, String.toList_append]
    simp
  exact absurd (Nat.isDigit_of_mem_toDigits (by decide) (by decide) hminus) (by decide)

private theorem intText_inj {n k : Int} (h : toString n = toString k) : n = k := by
  cases n with
  | ofNat a =>
    cases k with
    | ofNat b => exact congrArg Int.ofNat (natText_inj h)
    | negSucc b => exact absurd h (natText_ne_minus a (b + 1))
  | negSucc a =>
    cases k with
    | ofNat b => exact absurd h.symm (natText_ne_minus b (a + 1))
    | negSucc b =>
      have hrepr : (a + 1).repr = (b + 1).repr := (String.append_right_inj "-").mp h
      rw [Nat.succ.inj (natText_inj hrepr)]

/-- Entries whose keys are all different have different names just if numbers, integer keys and
texts do not meet. -/
theorem nodup_namesOf_iff {items : List Item} (hkeys : (keysOf items).Nodup) :
    (namesOf items).Nodup ↔ Separate items := by
  have hnames : namesOf items = ((numbered 0 items).map Prod.fst).map Key.text := by
    rw [List.map_map]
    rfl
  have hnumbered : ((numbered 0 items).map Prod.fst).Nodup ↔
      ∀ key ∈ positionNumbers 0 items, key ∉ keysOf items := by
    rw [(perm_numbered 0 items).nodup_iff, List.nodup_append']
    simp [nodup_positionNumbers, hkeys, List.Disjoint]
  rw [hnames]
  constructor
  · intro hnodup
    have hfirst := List.Nodup.of_map _ hnodup
    refine ⟨hnumbered.mp hfirst, fun n hn htext => ?_⟩
    have hsame := List.inj_on_of_nodup_map hnodup hn (str_mem_numbered.mpr htext) rfl
    cases hsame
  · intro hseparate
    apply (hnumbered.mpr hseparate.numbers).map_on
    intro a ha b hb htext
    cases a with
    | int n =>
      cases b with
      | int k =>
        have htexts : toString n = toString k := htext
        rw [intText_inj htexts]
      | str text =>
        have htext : toString n = text := htext
        subst htext
        exact (hseparate.texts n ha (str_mem_numbered.mp hb)).elim
    | str text =>
      cases b with
      | int k =>
        have htext : text = toString k := htext
        subst htext
        exact (hseparate.texts k hb (str_mem_numbered.mp ha)).elim
      | str other =>
        have htext : text = other := htext
        rw [htext]

private theorem lastNamed_of_mem {items : List Item} {name : String} (h : name ∈ namesOf items) :
    ∃ item ∈ items, lastNamed items name = some item := by
  obtain ⟨e, he, hname⟩ := List.mem_map.mp h
  have hfilter : e ∈ (numbered 0 items).filter fun e => e.1.text = name := by
    simp [he, hname]
  cases hlast : ((numbered 0 items).filter fun e => e.1.text = name).getLast? with
  | none =>
    rw [List.getLast?_eq_none_iff.mp hlast] at hfilter
    cases hfilter
  | some last =>
    have hmem := List.mem_of_mem_filter (List.mem_of_getLast? hlast)
    refine ⟨last.2, ?_, ?_⟩
    · rw [← map_snd_numbered 0 items]
      exact List.mem_map_of_mem hmem
    · rw [lastNamed, hlast, Option.map_some]

/-! Properties. -/

theorem mem_properties {ps : List NamedSchema} {name : String} :
    name ∈ (Dict.ofList (ps.map fun p => (p.name, p.schema))).entries.map Prod.fst ↔
      name ∈ ps.map NamedSchema.name := by
  change name ∈ (Dict.ofList _).keys ↔ _
  rw [Dict.ofList, Dict.mem_keys_setAll, List.map_map]
  constructor
  · intro h
    rcases h with h | h
    · cases h
    · exact h
  · exact .inr

/-- A run that ends well has parts that end well. -/
theorem exists_of_ends_bind {α β : Type} {x : Generation α} {f : α → Generation β} {b : β}
    {c c' : Components} (h : ends (x >>= f) c = (.ok b, c')) :
    ∃ a c₁, ends x c = (.ok a, c₁) ∧ ends (f a) c₁ = (.ok b, c') := by
  rcases hx : ends x c with ⟨⟨e⟩ | ⟨a⟩, c₁⟩
  · rw [ends_bind_error hx] at h
    cases h
  · rw [ends_bind_ok hx] at h
    exact ⟨a, c₁, rfl, h⟩

/-- The properties of a shape are its entries with their names. -/
theorem itemSchemas_named {es : List Extension} {items : List Item} {next : Int}
    {ps : List NamedSchema} {c c' : Components}
    (h : ends (itemSchemas askPlainly es next items) c = (.ok ps, c')) :
    ps.map (fun p => (p.name, p.isOptional)) =
      (numbered next items).map fun e => (e.1.text, e.2.isOptional) := by
  induction items generalizing next ps c with
  | nil =>
    cases h
    rfl
  | cons i is ih =>
    obtain ⟨key, value, isOptional, description, docHinted⟩ := i
    rw [itemSchemas] at h
    obtain ⟨s, c₁, -, h⟩ := exists_of_ends_bind h
    obtain ⟨rest, c₂, hrest, h⟩ := exists_of_ends_bind h
    cases h
    rw [List.map_cons, ih hrest, numbered, List.map_cons]
    rfl

private theorem exists_itemSchemas {es : List Extension} {items : List Item} {c c' : Components}
    {notes : Notes} {properties : List (String × Schema)} {required : List String}
    {additional : Option Schema}
    (h : ends (builtIn askPlainly es (.array items)) c =
      (.ok (.object notes properties required additional), c')) :
    ∃ ps, ends (itemSchemas askPlainly es 0 items) c = (.ok ps, c') ∧
      objectOf ps = .object notes properties required additional := by
  rw [builtIn] at h
  by_cases hshape : isArrayShape items = true
  · rw [if_pos hshape] at h
    obtain ⟨s, c₁, -, h⟩ := exists_of_ends_bind h
    cases h
  · rw [if_neg hshape] at h
    obtain ⟨ps, c₁, hps, h⟩ := exists_of_ends_bind h
    cases h
    exact ⟨ps, hps, rfl⟩

/-- If no entry is optional, then all names are required, and there are no other properties. -/
theorem required_of_shape {es : List Extension} {items : List Item}
    (hitems : ∀ i ∈ items, i.isOptional = false) {c c' : Components} {notes : Notes}
    {properties : List (String × Schema)} {required : List String} {additional : Option Schema}
    (h : ends (builtIn askPlainly es (.array items)) c =
      (.ok (.object notes properties required additional), c')) :
    required = namesOf items ∧ ∀ name, name ∈ properties.map Prod.fst ↔ name ∈ namesOf items := by
  obtain ⟨ps, hps, hobject⟩ := exists_itemSchemas h
  have hnamed := itemSchemas_named hps
  have hnames : ps.map NamedSchema.name = namesOf items := by
    have hfst := congrArg (List.map Prod.fst) hnamed
    rwa [List.map_map, List.map_map] at hfst
  have hall : ∀ p ∈ ps, (!p.isOptional) = true := by
    intro p hp
    have hmem := List.mem_map_of_mem (f := fun p : NamedSchema => (p.name, p.isOptional)) hp
    rw [hnamed] at hmem
    obtain ⟨e, he, heq⟩ := List.mem_map.mp hmem
    have hitem : e.2 ∈ items := by
      rw [← map_snd_numbered 0 items]
      exact List.mem_map_of_mem he
    have hsame : e.2.isOptional = p.isOptional := congrArg Prod.snd heq
    rw [← hsame, hitems e.2 hitem]
    rfl
  cases hobject
  constructor
  · rw [List.filter_eq_self.mpr hall, hnames]
  · intro name
    rw [mem_properties, hnames]

end OpenApi

namespace Inference

open Source Ty OpenApi

private theorem mem_shapeOf {entries : List Item} {i : Item} (h : i ∈ shapeOf entries) :
    i ∈ entries := by
  induction entries using List.reverseRecOn with
  | nil => cases h
  | append_singleton entries e ih =>
    rw [shapeOf_append_singleton] at h
    rw [List.mem_append, List.mem_singleton]
    rcases mem_withItem h with h | h
    · exact .inr h
    · exact .inl (ih h)

private theorem Evaluated.not_optional {s : Site} {elements : List Element} {f g : Frame}
    {m n : Memory} {entries : List Item} (h : Evaluated s elements f m entries g n) :
    ∀ i ∈ entries, i.isOptional = false := by
  induction h with
  | nil => exact List.forall_mem_nil _
  | @cons e rest key item items f f' g m m' n hkey hentry hrest ih =>
    rw [List.forall_mem_cons]
    have hsame : (item.withKey key).isOptional = item.isOptional := by
      cases item
      rfl
    exact ⟨hsame.trans (elementEntry_result hentry).2, ih⟩

/-- An array literal whose keys are literals, and which is written as an object. The names that it
requires are properties, and a property is required if the last entry with its name is not optional.
No name is required twice if numbers, integer keys and texts do not meet. -/
theorem literal_required (s : Site) {elements : List Element}
    (hkeys : ∀ e ∈ elements, (elementKey? e).isSome = true) {pos : Pos} {f g : Frame}
    {m n : Memory} {t : Ty}
    (htype : ending (settle (eval s (.array pos elements))) f m = (.ok (t, g), n))
    (es : List Extension) {c c' : Components} {notes : Notes}
    {properties : List (String × Schema)} {required : List String} {additional : Option Schema}
    (hschema : ends (OpenApi.builtIn askPlainly es t) c =
      (.ok (.object notes properties required additional), c')) :
    ∃ items, t = .array items ∧ (∀ name ∈ required, name ∈ properties.map Prod.fst) ∧
      (∀ name ∈ properties.map Prod.fst, ∃ item, lastNamed items name = some item ∧
        (name ∈ required ↔ item.isOptional = false)) ∧
      (required.Nodup ↔ Separate items) := by
  obtain ⟨entries, hentries⟩ := exists_evaluated hkeys htype
  have hsame := hentries.eval pos
  rw [htype] at hsame
  cases hsame
  have hoptional : ∀ i ∈ shapeOf entries, i.isOptional = false :=
    fun i hi => hentries.not_optional i (mem_shapeOf hi)
  obtain ⟨hrequired, hproperties⟩ := required_of_shape hoptional hschema
  refine ⟨shapeOf entries, rfl, ?_, ?_, ?_⟩
  · intro name hname
    rw [hproperties, ← hrequired]
    exact hname
  · intro name hname
    have hname := (hproperties name).mp hname
    obtain ⟨item, hitem, hlast⟩ := lastNamed_of_mem hname
    refine ⟨item, hlast, ?_⟩
    rw [hrequired]
    exact iff_of_true hname (hoptional item hitem)
  · rw [hrequired]
    exact nodup_namesOf_iff (nodup_keysOf_shapeOf entries)

/-- `['x', 5 => 'y', 'a' => 'z', 'w']` -/
def mixedElements : List Element :=
  [.plain ⟨1, 1⟩ none (.string ⟨1, 1⟩ "x" false),
    .keyed ⟨1, 1⟩ none (.int ⟨1, 1⟩ 5) (.string ⟨1, 1⟩ "y" false),
    .keyed ⟨1, 1⟩ none (.string ⟨1, 1⟩ "a" false) (.string ⟨1, 1⟩ "z" false),
    .plain ⟨1, 1⟩ none (.string ⟨1, 1⟩ "w" false)]

def mixedItems : List Item :=
  [.of none (.string (some "x")), .of (some (.int 5)) (.string (some "y")),
    .of (some (.str "a")) (.string (some "z")), .of none (.string (some "w"))]

theorem mixedElements_required :
    (∀ e ∈ mixedElements, (elementKey? e).isSome = true) ∧
    ending (settle (eval emptySite (.array ⟨1, 1⟩ mixedElements))) ⟨.empty, []⟩ .empty =
      (.ok (.array mixedItems, ⟨.empty, []⟩), .empty) ∧
    ends (OpenApi.builtIn askPlainly [] (.array mixedItems)) .empty =
      (.ok (.object .none (["0", "5", "a", "6"].map fun name => (name, .ofPlain .string))
        ["0", "5", "a", "6"] none), .empty) ∧
    Separate mixedItems := by
  have hkeys : ∀ e ∈ mixedElements, (elementKey? e).isSome = true := by
    simp only [mixedElements, List.forall_mem_cons]
    exact ⟨rfl, rfl, rfl, rfl, List.forall_mem_nil _⟩
  have htype : ending (settle (eval emptySite (.array ⟨1, 1⟩ mixedElements))) ⟨.empty, []⟩ .empty =
      (.ok (.array mixedItems, ⟨.empty, []⟩), .empty) := rfl
  have hschema : ends (OpenApi.builtIn askPlainly [] (.array mixedItems)) .empty =
      (.ok (.object .none (["0", "5", "a", "6"].map fun name => (name, .ofPlain .string))
        ["0", "5", "a", "6"] none), .empty) := rfl
  obtain ⟨items, hitems, -, -, hnodup⟩ := literal_required emptySite hkeys htype [] hschema
  cases hitems
  exact ⟨hkeys, htype, hschema, hnodup.mp (by decide)⟩

/-- `['x', 0 => 'y']` -/
def collidingElements : List Element :=
  [.plain ⟨1, 1⟩ none (.string ⟨1, 1⟩ "x" false),
    .keyed ⟨1, 1⟩ none (.int ⟨1, 1⟩ 0) (.string ⟨1, 1⟩ "y" false)]

def collidingItems : List Item :=
  [.of none (.string (some "x")), .of (some (.int 0)) (.string (some "y"))]

/-- The only property is required twice. -/
theorem collidingElements_required_twice :
    ending (settle (eval emptySite (.array ⟨1, 1⟩ collidingElements))) ⟨.empty, []⟩ .empty =
      (.ok (.array collidingItems, ⟨.empty, []⟩), .empty) ∧
    ends (OpenApi.builtIn askPlainly [] (.array collidingItems)) .empty =
      (.ok (.object .none [("0", .ofPlain .string)] ["0", "0"] none), .empty) :=
  ⟨rfl, rfl⟩

end Inference

end PhpTypes
