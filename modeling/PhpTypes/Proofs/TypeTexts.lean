import Mathlib.Data.List.Forall2
import PhpTypes.Proofs.Joins
import PhpTypes.Proofs.TypeReadings

/-!
# Texts of types

The text of a type is read back as that type, where type expressions have words for it: without
values of scalars, without functions, and without types that are not known.
-/

namespace PhpTypes.Doc

/-! Texts in parts. -/

/-- A text stands for some tokens in front of whatever makes no token longer. -/
def Prints (cs : List Char) (ts : List TypeToken) : Prop :=
  ∀ rest us, Delimited rest → Spells rest us → Spells (cs ++ rest) (ts ++ us)

private theorem delimited_nil : Delimited [] := by simp [Delimited]

private theorem delimited_mark {c : Char} {t : TypeToken} (h : punctuation? c = some t)
    (cs : List Char) : Delimited (c :: cs) := by
  intro d hd
  cases hd
  unfold punctuation? at h
  split at h <;> cases h <;> decide

theorem Delimited.append {cs ds : List Char} (hcs : Delimited cs) (hds : Delimited ds) :
    Delimited (cs ++ ds) := by
  cases cs with
  | nil => exact hds
  | cons c cs => exact hcs

theorem Prints.spells {cs : List Char} {ts : List TypeToken} (h : Prints cs ts) : Spells cs ts := by
  have hspells := h [] [] delimited_nil .nil
  rwa [List.append_nil, List.append_nil] at hspells

theorem prints_nil : Prints [] [] := fun _ _ _ h => h

theorem Prints.append {cs ds : List Char} {ts us : List TypeToken} (h : Prints cs ts)
    (hds : Prints ds us) (hdelimited : Delimited ds) : Prints (cs ++ ds) (ts ++ us) := by
  intro rest vs hrest hvs
  rw [List.append_assoc, List.append_assoc]
  exact h _ _ (hdelimited.append hrest) (hds rest vs hrest hvs)

private theorem Lexeme.prints {t : TypeToken} {w : List Char} (h : Lexeme t w) : Prints w [t] :=
  fun _ _ hrest hus => .token (h.longest hrest) hus

/-- A mark ends where it starts, whatever follows. -/
theorem Prints.mark {c : Char} {t : TypeToken} {cs : List Char} {ts : List TypeToken}
    (hc : punctuation? c = some t) (h : Prints cs ts) : Prints (c :: cs) (t :: ts) := by
  intro rest us hrest hus
  have hlongest : Longest t [c] (cs ++ rest) := by
    constructor
    · exact .punctuation hc
    · intro u v _ hne t' ht'
      have hkind : t'.kind = .punctuation :=
        (Lexeme.kind_eq ht' (.punctuation hc)).trans (punctuation?_kind hc)
      obtain ⟨_, hsingle, -⟩ := ht'.single hkind
      exact hne (List.cons.inj hsingle).2
  exact Spells.token (w := [c]) hlongest (h rest us hrest hus)

theorem Prints.gap {gap cs : List Char} {ts : List TypeToken} (hgap : ∀ c ∈ gap, isGap c = true)
    (h : Prints cs ts) : Prints (gap ++ cs) ts := by
  intro rest us hrest hus
  induction gap with
  | nil => exact h rest us hrest hus
  | cons c gap ih =>
    rw [List.forall_mem_cons] at hgap
    exact .gap hgap.1 (ih hgap.2)

theorem prints_name {name : String} (h : NameText name.toList) :
    Prints name.toList [.name name] := by
  have hprints := (Lexeme.name h).prints
  rwa [String.ofList_toList] at hprints

private theorem prints_int (n : Int) : Prints (toString n).toList [.int n] := by
  cases n with
  | ofNat n =>
    have hdigits : (toString (Int.ofNat n)).toList = Nat.toDigits 10 n := Nat.toList_repr
    rw [hdigits]
    exact (Lexeme.natural Nat.toDigits_ne_nil (Text.readDigits_toDigits n)).prints
  | negSucc n =>
    have hdigits : (toString (Int.negSucc n)).toList = '-' :: Nat.toDigits 10 (n + 1) := by
      change ("-" ++ (n + 1).repr).toList = _
      rw [String.toList_append, Nat.toList_repr]
      rfl
    rw [hdigits]
    exact (Lexeme.negative Nat.toDigits_ne_nil (Text.readDigits_toDigits (n + 1))).prints

/-! Phrases that are read back. -/

/-- What a derivation stands for when nothing is known of classes. -/
def Derivation.plain {c : Nonterminal} (d : Derivation c) : c.Meaning :=
  Id.run (d.build (plainReader none))

/-- The text of a thing is a phrase, and what the phrase stands for is related to the thing. -/
def Reads (c : Nonterminal) {α : Type} (text : α → List Char) (R : c.Meaning → α → Prop) (a : α) :
    Prop :=
  ∃ d : Derivation c, Prints (text a) d.tokens ∧ R d.plain a

/-- Texts with a mark in front of each, and a gap after the mark. -/
def marked {α : Type} (mark : Char) (gap : List Char) (text : α → List Char) (as : List α) :
    List Char :=
  as.flatMap fun a => mark :: (gap ++ text a)

theorem marked_cons {α : Type} (mark : Char) (gap : List Char) (text : α → List Char) (a : α)
    (as : List α) :
    marked mark gap text (a :: as) = mark :: (gap ++ (text a ++ marked mark gap text as)) := by
  simp [marked]

theorem delimited_marked {α : Type} {mark : Char} {separator : TypeToken} {gap : List Char}
    (h : punctuation? mark = some separator) (text : α → List Char) (as : List α) :
    Delimited (marked mark gap text as) := by
  cases as with
  | nil => exact delimited_nil
  | cons a as => exact delimited_mark h _

theorem Reads.others {c : Nonterminal} {α : Type} {text : α → List Char}
    {R : c.Meaning → α → Prop} {mark : Char} {separator : TypeToken} {gap : List Char}
    (hmark : punctuation? mark = some separator) (hgap : ∀ x ∈ gap, isGap x = true) {as : List α}
    (h : ∀ a ∈ as, Reads c text R a) :
    Reads (.others separator c) (marked mark gap text) (List.Forall₂ R) as := by
  induction as with
  | nil => exact ⟨.noOther, prints_nil, .nil⟩
  | cons a as ih =>
    rw [List.forall_mem_cons] at h
    obtain ⟨d, hd, hR⟩ := h.1
    obtain ⟨ds, hds, hRs⟩ := ih h.2
    have hprints := ((hd.append hds (delimited_marked hmark text as)).gap hgap).mark hmark
    rw [← marked_cons] at hprints
    exact ⟨.other d ds, hprints, .cons hR hRs⟩

/-! Types. -/

def chars (t : Ty) : List Char := t.text.toList

def itemChars (i : Item) : List Char := (Ty.itemText i).toList

def Alike (t u : Ty) : Prop := Ty.same t u = true

def AlikeItem (i j : Item) : Prop := Ty.sameItem i j = true

theorem Reads.listed {t : Ty} (h : Reads .atom chars Alike t) : Reads .listed chars Alike t := by
  obtain ⟨d, hd, ht⟩ := h
  exact ⟨.primary (.atom d), hd, ht⟩

theorem Reads.part {t : Ty} (h : Reads .listed chars Alike t) :
    Reads .intersection chars Alike t := by
  obtain ⟨d, hd, ht⟩ := h
  have htokens : (Derivation.intersection d .noOther).tokens = d.tokens := List.append_nil _
  exact ⟨.intersection d .noOther, htokens ▸ hd, ht⟩

theorem Reads.whole {t : Ty} (h : Reads .intersection chars Alike t) :
    Reads .union chars Alike t := by
  obtain ⟨d, hd, ht⟩ := h
  have htokens : (Derivation.union d .noOther).tokens = d.tokens := List.append_nil _
  exact ⟨.union d .noOther, htokens ▸ hd, ht⟩

theorem intercalate_cons (separator text : List Char) (texts : List (List Char)) :
    separator.intercalate (text :: texts) = text ++ texts.flatMap (separator ++ ·) := by
  induction texts generalizing text with
  | nil => simp [List.intercalate]
  | cons next texts ih =>
    rw [List.flatMap_cons, List.append_assoc, ← ih]
    simp [List.intercalate]

private theorem texts_eq_map (ts : List Ty) : Ty.texts ts = ts.map Ty.text := by
  induction ts with
  | nil => rfl
  | cons t ts ih =>
    rw [List.map_cons, ← ih]
    rfl

private theorem itemTexts_eq_map (is : List Item) : Ty.itemTexts is = is.map Ty.itemText := by
  induction is with
  | nil => rfl
  | cons i is ih =>
    rw [List.map_cons, ← ih]
    rfl

private theorem chars_union (t : Ty) (ts : List Ty) :
    chars (.union (t :: ts)) = chars t ++ marked '|' [] chars ts := by
  have htext : (Ty.union (t :: ts)).text = "|".intercalate (Ty.texts (t :: ts)) := rfl
  rw [chars, htext, String.toList_intercalate, texts_eq_map, List.map_map, List.map_cons,
    intercalate_cons, List.flatMap_map]
  rfl

private theorem chars_intersection (t : Ty) (ts : List Ty) :
    chars (.intersection (t :: ts)) = chars t ++ marked '&' [] chars ts := by
  have htext : (Ty.intersection (t :: ts)).text = "&".intercalate (Ty.texts (t :: ts)) := rfl
  rw [chars, htext, String.toList_intercalate, texts_eq_map, List.map_map, List.map_cons,
    intercalate_cons, List.flatMap_map]
  rfl

private theorem chars_array_cons (i : Item) (is : List Item) :
    chars (.array (i :: is)) =
      "array".toList ++ '\x7b' :: (itemChars i ++ (marked ',' [' '] itemChars is ++ ['\x7d'])) := by
  have htext : (Ty.array (i :: is)).text =
      "array\x7b" ++ ", ".intercalate (Ty.itemTexts (i :: is)) ++ "\x7d" := rfl
  rw [chars, htext, String.toList_append, String.toList_append, String.toList_intercalate,
    itemTexts_eq_map, List.map_map, List.map_cons, intercalate_cons, List.flatMap_map]
  simp [marked, itemChars]

private theorem chars_list (value : Ty) :
    chars (.map none value) = "array".toList ++ '<' :: (chars value ++ ['>']) := by
  have htext : (Ty.map none value).text = "array<" ++ value.text ++ ">" := rfl
  rw [chars, htext, String.toList_append, String.toList_append]
  rfl

private theorem chars_map (key value : Ty) :
    chars (.map (some key) value) =
      "array".toList ++ '<' :: (chars key ++ ',' :: ' ' :: (chars value ++ ['>'])) := by
  have htext : (Ty.map (some key) value).text =
      "array<" ++ key.text ++ ", " ++ value.text ++ ">" := rfl
  simp [chars, htext]

private theorem itemChars_keyed (key : Key) (value : Ty) (isOptional : Bool) (description : String)
    (docHinted : Bool) :
    itemChars (.mk (some key) value isOptional description docHinted) =
      key.text.toList ++ (if isOptional then ['?'] else []) ++ ':' :: ' ' :: chars value := by
  have htext : Ty.itemText (.mk (some key) value isOptional description docHinted) =
      key.text ++ (if isOptional then "?" else "") ++ ": " ++ value.text := rfl
  cases isOptional <;> simp [itemChars, htext, chars]

/-! The text of each type. -/

private theorem reads_named {t : Ty} (hname : NamePath (chars t))
    (hread : Alike (Id.run (namedType (plainReader none) t.text)) t) :
    Reads .atom chars Alike t := by
  have hfront : [] ∈ nameFronts := by decide
  have htext : NameText t.text.toList := .mk hfront hname
  exact ⟨.named t.text, prints_name htext, hread⟩

/-- The names that stand for no class. -/
def reservedNames : List String :=
  scalarTypes.map (·.1) ++ arrayNames ++ selfNames ++ ["callable", "resource", "never"]

private theorem plainName_of_namePath {name : String} (h : NamePath name.toList) :
    Source.plainName name = name := by
  obtain ⟨c, cs, hcs, hc⟩ := h.head
  rw [Source.plainName, hcs, List.dropWhile_cons_of_neg (by simpa using (startsPart_ne hc).2),
    ← hcs, String.ofList_toList]

private theorem same_instanceOf {name : String} (h : NamePath name.toList)
    (declared : Option String) : Alike (.instanceOf name none) (.object name declared) := by
  have hplain : Ty.instanceOf name none = .object name none := by
    rw [Ty.instanceOf, ← Source.plainName, plainName_of_namePath h]
  rw [hplain]
  simp [Alike, Ty.same]

private theorem reads_object {name : String} {declared : Option String}
    (hname : NamePath name.toList) (hreserved : Text.lower name ∉ reservedNames) :
    Reads .atom chars Alike (.object name declared) := by
  have hkey : Source.nameKey name = Text.lower name := by
    rw [Source.nameKey, plainName_of_namePath hname]
  simp only [reservedNames, List.mem_append, not_or] at hreserved
  obtain ⟨⟨⟨hscalar, harray⟩, hself⟩, hother⟩ := hreserved
  have hlookup : scalarTypes.lookup (Text.lower name) = none := by
    rw [List.lookup_eq_none_iff]
    intro p hp
    rw [bne_iff_ne]
    exact fun h => hscalar (List.mem_map.mpr ⟨p, hp, h.symm⟩)
  simp only [List.mem_cons, List.not_mem_nil, or_false, not_or] at hother
  have hread : Alike (Id.run (namedType (plainReader none) name)) (.object name declared) := by
    by_cases hobject : Text.lower name = "object"
    · have hnamed : namedType (plainReader none) name = pure (.object "object" none) := by
        simp only [namedType, hkey, hobject]
        rfl
      have hlower : Text.lower "object" = "object" := by rfl
      rw [hnamed]
      change Ty.same (.object "object" none) _ = true
      rw [Ty.same, hlower, hobject, beq_self_eq_true]
    · have hnamed : namedType (plainReader none) name = pure (.instanceOf name none) := by
        simp only [namedType, hkey, hlookup, List.contains_iff_mem, harray, hself, hobject, hother,
          plainName_of_namePath hname, beq_iff_eq, Bool.or_eq_true, or_self, if_false]
        rfl
      rw [hnamed]
      exact same_instanceOf hname declared
  exact reads_named hname hread

private theorem prints_array : Prints "array".toList [.name "array"] := prints_name (by decide)

private theorem prints_close {c : Char} {t : TypeToken} (h : punctuation? c = some t) :
    Prints [c] [t] :=
  prints_nil.mark h

private theorem isGap_space : ∀ c ∈ [' '], isGap c = true := by simp [isGap]

private theorem isGap_nil : ∀ c ∈ [], isGap c = true := by simp

private theorem reads_list {value : Ty} (h : Reads .union chars Alike value) :
    Reads .atom chars Alike (.map none value) := by
  obtain ⟨d, hd, hvalue⟩ := h
  refine ⟨.generic "array" d .noOther, ?_, Ty.same_map_iff.mpr ⟨.none, hvalue⟩⟩
  have hinner := hd.append (prints_close (c := '>') rfl) (delimited_mark rfl [])
  have hprints := prints_array.append (hinner.mark (c := '<') rfl) (delimited_mark rfl _)
  rw [chars_list]
  simpa [Derivation.tokens] using hprints

private theorem reads_map {key value : Ty} (hkey : Reads .union chars Alike key)
    (hvalue : Reads .union chars Alike value) :
    Reads .atom chars Alike (.map (some key) value) := by
  obtain ⟨d, hd, hkey⟩ := hkey
  obtain ⟨e, he, hvalue⟩ := hvalue
  refine ⟨.generic "array" d (.other e .noOther), ?_, Ty.same_map_iff.mpr ⟨.some hkey, hvalue⟩⟩
  have hlast := he.append (prints_close (c := '>') rfl) (delimited_mark rfl [])
  have hmore := (hlast.gap isGap_space).mark (c := ',') rfl
  have hinner := hd.append hmore (delimited_mark rfl _)
  have hprints := prints_array.append (hinner.mark (c := '<') rfl) (delimited_mark rfl _)
  rw [chars_map]
  simpa [Derivation.tokens] using hprints

/-- The keys that an expression has words for. -/
def WordedKey : Key → Prop
  | .int _ => True
  | .str s => NameText s.toList

private theorem reads_key {key : Key} (h : WordedKey key) :
    Reads .key (fun key => key.text.toList) Eq key := by
  cases key with
  | int n => exact ⟨.intKey n, prints_int n, rfl⟩
  | str s => exact ⟨.nameKey s, prints_name h, rfl⟩

private theorem reads_keyed {key : Key} {value : Ty} {isOptional : Bool} {description : String}
    {docHinted : Bool} (hkey : WordedKey key) (hvalue : Reads .union chars Alike value) :
    Reads .item itemChars AlikeItem (.mk (some key) value isOptional description docHinted) := by
  obtain ⟨d, hd, hkey⟩ := reads_key hkey
  obtain ⟨e, he, hvalue⟩ := hvalue
  refine ⟨.keyed d isOptional e, ?_, ?_⟩
  · have hrest := (he.gap isGap_space).mark (c := ':') rfl
    rw [itemChars_keyed]
    cases isOptional with
    | false =>
      simpa [Derivation.tokens, TypeToken.ifAny] using hd.append hrest (delimited_mark rfl _)
    | true =>
      have hmarked := hrest.mark (c := '?') rfl
      simpa [Derivation.tokens, TypeToken.ifAny] using hd.append hmarked (delimited_mark rfl _)
  · change Ty.sameItem (.mk (some d.plain) e.plain isOptional "" false) _ = true
    have hsame : Ty.same e.plain value = true := hvalue
    rw [hkey]
    simp [Ty.sameItem, hsame]

private theorem reads_positional {value : Ty} {description : String} {docHinted : Bool}
    (hvalue : Reads .union chars Alike value) :
    Reads .item itemChars AlikeItem (.mk none value false description docHinted) := by
  obtain ⟨e, he, hvalue⟩ := hvalue
  refine ⟨.value e, he, ?_⟩
  have hsame : Ty.same e.plain value = true := hvalue
  change Ty.sameItem (.mk none e.plain false "" false) _ = true
  simp [Ty.sameItem, hsame]

private theorem sameItems_of_forall₂ {is js : List Item} (h : List.Forall₂ AlikeItem is js) :
    Ty.sameItems is js = true := by
  induction h with
  | nil => rw [Ty.sameItems]
  | cons hij _ ih => rw [Ty.sameItems, hij, ih, Bool.and_self]

private theorem alike_array {is js : List Item} (h : List.Forall₂ AlikeItem is js) :
    Alike (.array is) (.array js) := by
  rw [Alike, Ty.same]
  exact sameItems_of_forall₂ h

private theorem reads_array {items : List Item}
    (h : ∀ i ∈ items, Reads .item itemChars AlikeItem i) :
    Reads .atom chars Alike (.array items) := by
  have hcomma : punctuation? ',' = some .comma := rfl
  have hclose := prints_close (c := '\x7d') rfl
  cases items with
  | nil =>
    refine ⟨.emptyShape "array", ?_, alike_array .nil⟩
    exact prints_array.append (hclose.mark (c := '\x7b') rfl) (delimited_mark rfl _)
  | cons i is =>
    rw [List.forall_mem_cons] at h
    obtain ⟨d, hd, hi⟩ := h.1
    obtain ⟨ds, hds, his⟩ := Reads.others hcomma isGap_space h.2
    refine ⟨.shape "array" (.items d ds false), ?_, alike_array (.cons hi his)⟩
    have hlast := hds.append hclose (delimited_mark rfl [])
    have hdelimited : Delimited (marked ',' [' '] itemChars is ++ ['\x7d']) :=
      (delimited_marked hcomma itemChars is).append (delimited_mark rfl [])
    have hinner := (hd.append hlast hdelimited).mark (c := '\x7b') rfl
    have hprints := prints_array.append hinner (delimited_mark rfl _)
    rw [chars_array_cons]
    simpa [Derivation.tokens, TypeToken.ifAny] using hprints

private theorem sameSet_of_forall₂ {us ts : List Ty} (h : List.Forall₂ Alike us ts) :
    Ty.SameSet us ts := by
  induction h with
  | nil => exact ⟨by simp, by simp⟩
  | @cons u t us ts hut _ ih =>
    constructor
    · intro a ha
      rcases List.mem_cons.mp ha with rfl | ha
      · exact ⟨t, by simp, hut⟩
      · obtain ⟨b, hb, hab⟩ := ih.1 a ha
        exact ⟨b, List.mem_cons_of_mem t hb, hab⟩
    · intro b hb
      rcases List.mem_cons.mp hb with rfl | hb
      · exact ⟨u, by simp, hut⟩
      · obtain ⟨a, ha, hab⟩ := ih.2 b hb
        exact ⟨a, List.mem_cons_of_mem u ha, hab⟩

private theorem inlined_of_ne_nil {α : Type} {make : List α → α} {first : α} {more : List α}
    (h : more ≠ []) : inlined make first more = make (first :: more) := by
  cases more with
  | nil => exact (h rfl).elim
  | cons a as => rfl

private theorem ne_nil_of_forall₂ {α β : Type} {R : α → β → Prop} {as : List α} {b : β}
    {bs : List β} (h : List.Forall₂ R as (b :: bs)) : as ≠ [] := by
  cases h
  simp

private theorem reads_intersection {ts : List Ty} (htwo : 2 ≤ ts.length)
    (h : ∀ t ∈ ts, Reads .atom chars Alike t) :
    Reads .intersection chars Alike (.intersection ts) := by
  match ts, htwo with
  | t :: u :: ts, _ =>
    have hamp : punctuation? '&' = some .amp := rfl
    rw [List.forall_mem_cons] at h
    obtain ⟨d, hd, ht⟩ := h.1.listed
    obtain ⟨ds, hds, hts⟩ := Reads.others hamp isGap_nil fun v hv => (h.2 v hv).listed
    refine ⟨.intersection d ds, ?_, ?_⟩
    · rw [chars_intersection]
      exact hd.append hds (delimited_marked hamp chars _)
    · have hplain : (Derivation.intersection d ds).plain = .intersection (d.plain :: ds.plain) :=
        inlined_of_ne_nil (ne_nil_of_forall₂ hts)
      rw [hplain, Alike, Ty.same, Ty.sameSet_iff]
      exact sameSet_of_forall₂ (.cons ht hts)

private theorem isUnion_of_alike {t u : Ty} (h : Alike t u) : t.isUnion = u.isUnion := by
  cases t <;> cases u <;> simp_all [Alike, Ty.same, Ty.isUnion]

/-- Types that are alike are different from the same types. -/
theorem Alike.same_eq_false {t t' u u' : Ty} (ht : Alike t t') (hu : Alike u u')
    (h : Ty.same t' u' = false) : Ty.same t u = false := by
  by_contra hsame
  have hback := Ty.same_trans (Ty.same_symm ht) (Ty.same_trans (Bool.of_not_eq_false hsame) hu)
  rw [hback] at h
  cases h

private theorem normal_of_forall₂ {us ts : List Ty} (h : List.Forall₂ Alike us ts)
    (hts : Ty.Normal ts) : Ty.Normal us := by
  constructor
  · rw [h.length_eq]
    exact hts.two_le
  · intro u hu
    obtain ⟨t, ht, hut⟩ := (sameSet_of_forall₂ h).1 u hu
    exact (isUnion_of_alike hut).trans (hts.flat t ht)
  · obtain ⟨-, -, hdistinct⟩ := hts
    induction h with
    | nil => exact .nil
    | cons hut hus ih =>
      rw [List.pairwise_cons] at hdistinct ⊢
      constructor
      · intro v hv
        obtain ⟨w, hw, hvw⟩ := (sameSet_of_forall₂ hus).1 v hv
        exact hut.same_eq_false hvw (hdistinct.1 w hw)
      · exact ih hdistinct.2

private theorem unionOf_normal {ts : List Ty} (h : Ty.Normal ts) : Ty.unionOf ts = .union ts := by
  have hkept : Ty.distinctFrom [] (ts ++ []) = ts ++ Ty.distinctFrom (ts.reverse ++ []) [] :=
    Ty.distinctFrom_append [] h.distinct (by simp)
  have hdistinct : Ty.distinct ts = ts := by
    simpa [Ty.distinct, Ty.distinctFrom] using hkept
  have hnode : (Ty.union ts).UnionNode := h
  rw [Ty.unionOf, Ty.flattenAll_eq_flatMap, Ty.flatMap_flatten_of_flat h.flat, hdistinct]
  exact Ty.ofMembers_members hnode

private theorem reads_union {ts : List Ty} (hnormal : Ty.Normal ts)
    (h : ∀ t ∈ ts, Reads .intersection chars Alike t) :
    Reads .union chars Alike (.union ts) := by
  match ts, hnormal, hnormal.two_le with
  | t :: u :: ts, hnormal, _ =>
    have hbar : punctuation? '|' = some .bar := rfl
    rw [List.forall_mem_cons] at h
    obtain ⟨d, hd, ht⟩ := h.1
    obtain ⟨ds, hds, hts⟩ := Reads.others hbar isGap_nil h.2
    refine ⟨.union d ds, ?_, ?_⟩
    · rw [chars_union]
      exact hd.append hds (delimited_marked hbar chars _)
    · have hplain : (Derivation.union d ds).plain = Ty.unionOf (d.plain :: ds.plain) :=
        inlined_of_ne_nil (ne_nil_of_forall₂ hts)
      rw [hplain, unionOf_normal (normal_of_forall₂ (.cons ht hts) hnormal), Alike, Ty.same,
        Ty.sameSet_iff]
      exact sameSet_of_forall₂ (.cons ht hts)

/-! Types that expressions have words for. -/

def isIntersection : Ty → Bool
  | .intersection _ => true
  | _ => false

/-- An entry by position is always there; any other entry has a key that can be written. -/
def WordedItem : Item → Prop
  | .mk none _ isOptional _ _ => isOptional = false
  | .mk (some key) _ _ _ _ => WordedKey key

/-- The condition for a single node. -/
def WordedNode : Ty → Prop
  | .null | .boolean | .int none | .float none | .string none | .map _ _ => True
  | .object name _ => NamePath name.toList ∧ Text.lower name ∉ reservedNames
  | .array items => ∀ i ∈ items, WordedItem i
  | .intersection ts =>
    2 ≤ ts.length ∧ ∀ t ∈ ts, t.isUnion = false ∧ isIntersection t = false
  | .union ts => Ty.Normal ts
  | _ => False

/-- How the text of a type can be used in a larger one without brackets. -/
structure Readings (t : Ty) : Prop where
  atom : t.isUnion = false → isIntersection t = false → Reads .atom chars Alike t
  part : t.isUnion = false → Reads .intersection chars Alike t
  whole : Reads .union chars Alike t

theorem Reads.readings {t : Ty} (h : Reads .atom chars Alike t) : Readings t :=
  ⟨fun _ _ => h, fun _ => h.listed.part, h.listed.part.whole⟩

mutual

private theorem readings : ∀ t : Ty, t.Every WordedNode → Readings t
  | .null, _ => by
    have hread : Alike .null .null := by rw [Alike, Ty.same]
    have hname : NamePath "null".toList := by decide
    exact (reads_named (t := .null) hname hread).readings
  | .boolean, _ => by
    have hread : Alike .boolean .boolean := by rw [Alike, Ty.same]
    have hname : NamePath "boolean".toList := by decide
    exact (reads_named (t := .boolean) hname hread).readings
  | .int none, _ => by
    have hread : Alike (.int none) (.int none) := by simp [Alike, Ty.same]
    have hname : NamePath "int".toList := by decide
    exact (reads_named (t := .int none) hname hread).readings
  | .float none, _ => by
    have hread : Alike (.float none) (.float none) := by simp [Alike, Ty.same]
    have hname : NamePath "float".toList := by decide
    exact (reads_named (t := .float none) hname hread).readings
  | .string none, _ => by
    have hread : Alike (.string none) (.string none) := by simp [Alike, Ty.same]
    have hname : NamePath "string".toList := by decide
    exact (reads_named (t := .string none) hname hread).readings
  | .object name declared, h => (reads_object h.self.1 h.self.2).readings
  | .map none value, h => by
    obtain ⟨-, -, hvalue⟩ := Ty.every_map.mp h
    exact (reads_list (readings value hvalue).whole).readings
  | .map (some key) value, h => by
    obtain ⟨-, hkey, hvalue⟩ := Ty.every_map.mp h
    exact (reads_map (readings key (hkey key rfl)).whole (readings value hvalue).whole).readings
  | .array items, h => by
    obtain ⟨hitems, hvalues⟩ := Ty.every_array.mp h
    exact (reads_array (readings_items items hitems hvalues)).readings
  | .intersection ts, h => by
    obtain ⟨⟨htwo, hplain⟩, hts⟩ := Ty.every_intersection.mp h
    have hreadings := readings_all ts hts
    have hpart := reads_intersection htwo fun t ht =>
      (hreadings t ht).atom (hplain t ht).1 (hplain t ht).2
    exact ⟨fun _ hne => (by cases hne), fun _ => hpart, hpart.whole⟩
  | .union ts, h => by
    obtain ⟨hnormal, hts⟩ := Ty.every_union.mp h
    have hreadings := readings_all ts hts
    have hwhole := reads_union hnormal fun t ht => (hreadings t ht).part (hnormal.flat t ht)
    exact ⟨fun hne => (by cases hne), fun hne => (by cases hne), hwhole⟩
  | .unknown, h | .int (some _), h | .float (some _), h | .string (some _), h
  | .function _ _, h => h.self.elim

private theorem readings_all : ∀ ts : List Ty, (∀ t ∈ ts, t.Every WordedNode) → ∀ t ∈ ts, Readings t
  | [], _ => by simp
  | t :: ts, h => by
    rw [List.forall_mem_cons] at h ⊢
    exact ⟨readings t h.1, readings_all ts h.2⟩

private theorem readings_items : ∀ is : List Item, (∀ i ∈ is, WordedItem i) →
    (∀ i ∈ is, i.value.Every WordedNode) → ∀ i ∈ is, Reads .item itemChars AlikeItem i
  | [], _, _ => by simp
  | .mk none value isOptional _ _ :: is, hitems, hvalues => by
    rw [List.forall_mem_cons] at hitems hvalues ⊢
    have hoptional : isOptional = false := hitems.1
    rw [hoptional]
    exact ⟨reads_positional (readings value hvalues.1).whole,
      readings_items is hitems.2 hvalues.2⟩
  | .mk (some key) value _ _ _ :: is, hitems, hvalues => by
    rw [List.forall_mem_cons] at hitems hvalues ⊢
    exact ⟨reads_keyed hitems.1 (readings value hvalues.1).whole,
      readings_items is hitems.2 hvalues.2⟩

end

/-- A type that expressions have words for is read back from its text. -/
theorem plainType_text {t : Ty} (h : t.Every WordedNode) : Ty.same (plainType t.text) t = true := by
  obtain ⟨d, hd, ht⟩ := (readings t h).whole
  rw [plainType, typeOfText_of_spells (plainReader none) hd.spells.trim]
  exact ht

/-- A shape with keys of both kinds, or a map to objects that are both models and countable. -/
def wordedType : Ty :=
  .union
    [.array
      [.mk (some (.int (-2))) (.map none (.union [.string none, .null])) true "" false,
        .mk (some (.str "unit-price")) (.float none) false "in cents" true,
        .mk none (.object "Object" none) false "" false],
      .map (some (.int none)) (.intersection [.object "App\\Model" (some "App\\Model"),
        .object "Countable" none])]

theorem wordedType_text :
    wordedType.Every WordedNode ∧ Ty.same (plainType wordedType.text) wordedType = true := by
  have hnormal : ∀ {t u : Ty}, t.isUnion = false → u.isUnion = false → Ty.same t u = false →
      Ty.Normal [t, u] := by
    intro t u ht hu htu
    exact ⟨Nat.le_refl 2, by simp [ht, hu], by simp [htu]⟩
  have hworded : wordedType.Every WordedNode := by
    simp only [wordedType, Ty.Every, Ty.parts, Ty.partsOfAll, Ty.partsOfItems, List.append_nil,
      List.nil_append, List.cons_append, List.forall_mem_cons, List.not_mem_nil, false_imp_iff,
      implies_true, WordedNode, WordedItem, WordedKey, and_true, true_and]
    exact ⟨hnormal rfl rfl (by simp [Ty.same]), by decide, hnormal rfl rfl (by simp [Ty.same]),
      by decide, ⟨by simp, by simp [isIntersection, Ty.isUnion]⟩, by decide, by decide⟩
  exact ⟨hworded, plainType_text hworded⟩

end PhpTypes.Doc
