import Mathlib.Data.List.Nodup
import Mathlib.Data.List.TakeWhile
import Mathlib.Tactic.ByContra
import PhpTypes.OpenApi.Document

/-!
# Names of components

The name that a schema is written with depends on all the registered names: it is short as long as
no other name ends alike, and else it is the whole name with dots. Among names without dots it tells
the schemas apart, so that the section of schemas has one member for each of them, and a reference
ends in the name of the member that it refers to.
-/

namespace PhpTypes.OpenApi

open Source (lastPart)

/-- The whole name, with dots for its separators. -/
def dotted (name : String) : String :=
  String.ofList (name.toList.map fun c => if c == '\\' then '.' else c)

/-- The registered names that end in the same part as a name. -/
def namesakes (registered : List String) (name : String) : List String :=
  registered.filter fun n => lastPart n == lastPart name

private theorem uniqueName_eq (registered : List String) (name : String) :
    uniqueName registered name =
      if (namesakes registered name).length ≤ 1 then lastPart name else dotted name := rfl

/-- A name of which no dot is a part. -/
def Dotless (name : String) : Prop := '.' ∉ name.toList

instance (name : String) : Decidable (Dotless name) :=
  inferInstanceAs (Decidable ('.' ∉ name.toList))

theorem Dotless.lastPart {name : String} (h : Dotless name) : Dotless (lastPart name) := by
  intro hdot
  rw [Source.lastPart, String.toList_ofList, List.mem_reverse] at hdot
  have hmem : '.' ∈ name.toList.reverse := (List.takeWhile_sublist _).mem hdot
  exact h (List.mem_reverse.mp hmem)

private theorem lastPart_of_not_mem {name : String} (h : '\\' ∉ name.toList) :
    lastPart name = name := by
  have hall : ∀ c ∈ name.toList.reverse, (c != '\\') = true := by
    intro c hc
    have hne : c ≠ '\\' := fun heq => h (heq ▸ List.mem_reverse.mp hc)
    simpa using hne
  rw [Source.lastPart, List.takeWhile_eq_self_iff.mpr hall, List.reverse_reverse,
    String.ofList_toList]

private theorem not_mem_of_dotless_dotted {name : String} (h : Dotless (dotted name)) :
    '\\' ∉ name.toList := by
  intro hmem
  apply h
  rw [dotted, String.toList_ofList, List.mem_map]
  exact ⟨'\\', hmem, rfl⟩

private theorem dotted_of_not_mem {name : String} (h : '\\' ∉ name.toList) :
    dotted name = name := by
  have hmap : (name.toList.map fun c => if c == '\\' then '.' else c) = name.toList.map id := by
    apply List.map_congr_left
    intro c hc
    have hne : c ≠ '\\' := fun heq => h (heq ▸ hc)
    simp [hne]
  rw [dotted, hmap, List.map_id, String.ofList_toList]

/-- Separators in place of dots give back a name that had no dots. -/
theorem Dotless.map_dotted {name : String} (h : Dotless name) :
    ((dotted name).toList.map fun c => if c == '.' then '\\' else c) = name.toList := by
  rw [dotted, String.toList_ofList, List.map_map]
  have hmap : name.toList.map ((fun c => if c == '.' then '\\' else c) ∘
      fun c => if c == '\\' then '.' else c) = name.toList.map id := by
    apply List.map_congr_left
    intro c hc
    have hne : c ≠ '.' := fun heq => h (heq ▸ hc)
    by_cases hsep : c = '\\'
    · simp [hsep]
    · simp [hsep, hne]
  rw [hmap, List.map_id]

private theorem dotted_injective {a b : String} (ha : Dotless a) (hb : Dotless b)
    (h : dotted a = dotted b) : a = b := by
  have hlist := ha.map_dotted
  rw [h, hb.map_dotted] at hlist
  exact (String.toList_inj.mp hlist).symm

/-- Two different names that end alike are namesakes of each other. -/
theorem one_lt_namesakes {registered : List String} {a b : String} (ha : a ∈ registered)
    (hb : b ∈ registered) (hne : a ≠ b) (hlast : lastPart a = lastPart b) :
    1 < (namesakes registered a).length := by
  have hamem : a ∈ namesakes registered a := List.mem_filter.mpr ⟨ha, by simp⟩
  have hbmem : b ∈ namesakes registered a := List.mem_filter.mpr ⟨hb, by simp [hlast]⟩
  by_contra hle
  have hone : (namesakes registered a).length = 1 := by
    have := List.length_pos_of_mem hamem
    omega
  obtain ⟨x, hx⟩ := List.length_eq_one_iff.mp hone
  rw [hx, List.mem_singleton] at hamem hbmem
  exact hne (hamem.trans hbmem.symm)

/-- A short name is not the name with dots of another schema: that schema would end alike. -/
theorem lastPart_ne_dotted {registered : List String} {a b : String} (ha : a ∈ registered)
    (hb : b ∈ registered) (hdot : Dotless a) (hne : a ≠ b)
    (hshort : (namesakes registered a).length ≤ 1) : lastPart a ≠ dotted b := by
  intro heq
  have hplain : '\\' ∉ b.toList := not_mem_of_dotless_dotted (heq ▸ hdot.lastPart)
  have hlast : lastPart a = lastPart b := by
    rw [heq, dotted_of_not_mem hplain, lastPart_of_not_mem hplain]
  have := one_lt_namesakes ha hb hne hlast
  omega

private theorem uniqueName_injective {registered : List String} {a b : String} (ha : a ∈ registered)
    (hb : b ∈ registered) (hdota : Dotless a) (hdotb : Dotless b)
    (h : uniqueName registered a = uniqueName registered b) : a = b := by
  by_contra hne
  rw [uniqueName_eq, uniqueName_eq] at h
  split at h
  · rename_i hshorta
    split at h
    · have := one_lt_namesakes ha hb hne h
      omega
    · exact lastPart_ne_dotted ha hb hdota hne hshorta h
  · split at h
    · rename_i hshortb
      exact lastPart_ne_dotted hb ha hdotb (Ne.symm hne) hshortb h.symm
    · exact hne (dotted_injective hdota hdotb h)

namespace Components

/-- Registers schemas one after the other. -/
def addAll (c : Components) (adds : List (String × Titled)) : Components :=
  adds.foldl (fun c a => c.add a.1 a.2) c

/-- No name stands twice among those of the schemas, and none has a dot. -/
structure Plain (c : Components) : Prop where
  nodup : c.names.Nodup
  dotless : ∀ name ∈ c.names, Dotless name

private theorem plain_empty : empty.Plain := ⟨List.nodup_nil, fun _ h => (List.not_mem_nil h).elim⟩

theorem Plain.add {c : Components} (hc : c.Plain) {name : String} (hname : Dotless name)
    (s : Titled) : (c.add name s).Plain := by
  constructor
  · exact Dict.nodup_keys_set hc.nodup name s
  · intro n hn
    rcases Dict.mem_keys_set.mp hn with rfl | hn
    · exact hname
    · exact hc.dotless n hn

theorem Plain.addAll {c : Components} (hc : c.Plain) {adds : List (String × Titled)}
    (h : ∀ a ∈ adds, Dotless a.1) : (c.addAll adds).Plain := by
  induction adds generalizing c with
  | nil => exact hc
  | cons a adds ih =>
    rw [List.forall_mem_cons] at h
    exact ih (hc.add h.1 a.2) h.2

/-- The schema of a name is the last one that was registered with it. -/
theorem get?_addAll (c : Components) (adds : List (String × Titled)) (name : String) :
    (c.addAll adds).get? name = (adds.reverse.lookup name).or (c.get? name) := by
  induction adds generalizing c with
  | nil => rfl
  | cons a adds ih =>
    have hstep : (c.add a.1 a.2).get? name = ([a].lookup name).or (c.get? name) := by
      obtain ⟨key, schema⟩ := a
      by_cases hname : name = key
      · subst hname
        simp [get?, add]
      · have hbeq : (name == key) = false := by simpa using hname
        simp [get?, add, List.lookup_cons, hbeq, Dict.get?_set_ne c.schemas hname]
    rw [List.reverse_cons, List.lookup_append, Option.or_assoc, ← hstep]
    exact ih (c.add a.1 a.2)

/-- The members of the section of schemas. -/
def members (c : Components) : List (String × Json) :=
  c.schemas.entries.map fun e => (c.unique e.1, e.2.json c.names)

private theorem map_fst_members (c : Components) :
    c.members.map Prod.fst = c.names.map c.unique := by
  rw [members, names, Dict.keys, List.map_map, List.map_map]
  rfl

theorem Plain.nodup_members {c : Components} (hc : c.Plain) : (c.members.map Prod.fst).Nodup := by
  rw [map_fst_members]
  apply List.Nodup.map_on ?_ hc.nodup
  intro a ha b hb h
  exact uniqueName_injective ha hb (hc.dotless a ha) (hc.dotless b hb) h

theorem Plain.json_eq {c : Components} (hc : c.Plain) :
    c.json = .obj (if c.names = [] then [] else [("schemas", .obj c.members)]) := by
  have hentries : (Dict.ofList c.members).entries = c.members :=
    Dict.entries_setAll (d := .empty) hc.nodup_members
  have hempty : c.schemas.isEmpty = true ↔ c.names = [] := by
    rw [Dict.isEmpty, List.isEmpty_iff, names, Dict.keys, List.map_eq_nil_iff]
  rw [json]
  change (if c.schemas.isEmpty = true then Json.obj []
    else .obj [("schemas", .obj (Dict.ofList c.members).entries)]) = _
  rw [hentries]
  by_cases hnames : c.names = []
  · rw [if_pos (hempty.mpr hnames), if_pos hnames]
  · rw [if_neg (mt hempty.mp hnames), if_neg hnames]

theorem Plain.lookup_members {c : Components} (hc : c.Plain) {name : String} {s : Titled}
    (h : c.get? name = some s) : Dict.lookup (c.unique name) c.members = some (s.json c.names) := by
  have hmem : (name, s) ∈ c.schemas.entries := Dict.mem_of_lookup h
  have hmember : (c.unique name, s.json c.names) ∈ c.members :=
    List.mem_map.mpr ⟨(name, s), hmem, rfl⟩
  exact Dict.get?_of_mem (d := ⟨c.members⟩) hc.nodup_members hmember

/-- Schemas that are registered with names without dots are written with different names. The
document has one member for each of them, under the name in which a reference to it ends. -/
theorem addAll_names_distinct (adds : List (String × Titled)) (h : ∀ a ∈ adds, Dotless a.1)
    (c : Components) (hc : c = empty.addAll adds) :
    (∀ a ∈ c.names, ∀ b ∈ c.names, c.unique a = c.unique b → a = b) ∧
    (∀ name, name ∈ c.names ↔ name ∈ adds.map Prod.fst) ∧
    ∃ members, c.json = .obj (if c.names = [] then [] else [("schemas", .obj members)]) ∧
      members.map Prod.fst = c.names.map c.unique ∧ (members.map Prod.fst).Nodup ∧
      ∀ name ∈ c.names, ∃ s key, adds.reverse.lookup name = some s ∧
        (schemaReference name).json c.names =
          .obj [("$ref", .str ("#/components/schemas/" ++ key))] ∧
        Dict.lookup key members = some (s.json c.names) := by
  have hplain : c.Plain := hc ▸ plain_empty.addAll h
  have hget : ∀ name, c.get? name = adds.reverse.lookup name := by
    intro name
    rw [hc, get?_addAll]
    exact Option.or_none
  refine ⟨?_, ?_, c.members, hplain.json_eq, c.map_fst_members, hplain.nodup_members, ?_⟩
  · intro a ha b hb heq
    exact uniqueName_injective ha hb (hplain.dotless a ha) (hplain.dotless b hb) heq
  · intro name
    rw [names, Dict.mem_keys_iff]
    change c.get? name ≠ none ↔ _
    rw [hget name, ne_eq, List.lookup_eq_none_iff]
    simp
  · intro name hname
    obtain ⟨s, hs⟩ := Option.ne_none_iff_exists'.mp (Dict.mem_keys_iff.mp hname)
    exact ⟨s, c.unique name, (hget name).symm.trans hs, rfl, hplain.lookup_members hs⟩

/-- Two classes that end alike, one of them registered twice, and a class of its own. -/
def moneyAdds : List (String × Titled) :=
  [("App\\Money", .of (.ofPlain .string)), ("Lib\\Money", .of (.ofPlain .integer)),
   ("User", .of (schemaReference "App\\Money")), ("App\\Money", .of (.ofPlain .number))]

theorem moneyAdds_names_distinct :
    (∀ a ∈ moneyAdds, Dotless a.1) ∧
    (empty.addAll moneyAdds).names = ["App\\Money", "Lib\\Money", "User"] ∧
    ∃ members, (empty.addAll moneyAdds).json = .obj [("schemas", .obj members)] ∧
      members.map Prod.fst = ["App.Money", "Lib.Money", "User"] ∧
      ∃ key, (schemaReference "App\\Money").json (empty.addAll moneyAdds).names =
          .obj [("$ref", .str ("#/components/schemas/" ++ key))] ∧
        Dict.lookup key members =
          some ((Titled.of (.ofPlain .number)).json (empty.addAll moneyAdds).names) := by
  have hdotless : ∀ a ∈ moneyAdds, Dotless a.1 := by decide +kernel
  have hnames : (empty.addAll moneyAdds).names = ["App\\Money", "Lib\\Money", "User"] := by
    decide +kernel
  have hunique : (empty.addAll moneyAdds).names.map (empty.addAll moneyAdds).unique =
      ["App.Money", "Lib.Money", "User"] := by
    decide +kernel
  obtain ⟨-, -, members, hjson, hkeys, -, hall⟩ := addAll_names_distinct moneyAdds hdotless _ rfl
  rw [if_neg (by simp [hnames])] at hjson
  refine ⟨hdotless, hnames, members, hjson, hkeys.trans hunique, ?_⟩
  obtain ⟨s, key, hs, href, hmember⟩ := hall "App\\Money" (by simp [hnames])
  have hlast : moneyAdds.reverse.lookup "App\\Money" = some (.of (.ofPlain .number)) := rfl
  rw [hlast] at hs
  cases hs
  exact ⟨key, href, hmember⟩

end Components

end PhpTypes.OpenApi
