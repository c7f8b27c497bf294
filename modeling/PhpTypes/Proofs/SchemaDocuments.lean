import Mathlib.Logic.Relation
import PhpTypes.Proofs.ObjectSchemas

/-!
# Documents of schemas

Without extensions every type whose unions are in order has a schema, and nothing is registered on
the way. In the document of the schema, alternatives are two or more, what an object requires is
among its properties, and neither null nor alternatives are made nullable. This holds for all
schemas inside of it, since the document of a part is again the document of such a schema.
-/

namespace PhpTypes.OpenApi

/-! Schemas. -/

/-- A schema that is in order at every depth. -/
inductive Neat : Schema → Prop where
  | plain {type notes} : (notes.nullable = true → type ≠ .null) → Neat (.plain type notes)
  | array {notes items} : Neat items → Neat (.array notes items)
  | object {notes properties required additional} : (∀ p ∈ properties, Neat p.2) →
    (∀ name ∈ required, name ∈ properties.map Prod.fst) → (∀ s ∈ additional, Neat s) →
    Neat (.object notes properties required additional)
  | anyOf {notes items} : notes.nullable = false → 2 ≤ items.length → (∀ s ∈ items, Neat s) →
    Neat (.anyOf notes items)
  | allOf {notes items} : (∀ s ∈ items, Neat s) → Neat (.allOf notes items)

theorem Neat.mapNotes {s : Schema} (h : Neat s) {f : Notes → Notes}
    (hf : ∀ n, (f n).nullable = n.nullable) : Neat (s.mapNotes f) := by
  cases h with
  | plain htype =>
    apply Neat.plain
    rw [hf]
    exact htype
  | array hitems => exact .array hitems
  | object hproperties hrequired hadditional =>
    exact .object hproperties hrequired hadditional
  | anyOf hnullable hlength hitems =>
    apply Neat.anyOf _ hlength hitems
    rw [hf]
    exact hnullable
  | allOf hitems => exact .allOf hitems

theorem Neat.describe {s : Schema} (h : Neat s) (description : String) :
    Neat (describe description s) := by
  rw [OpenApi.describe]
  split
  · exact h
  · exact h.mapNotes fun _ => rfl

private theorem neat_objectOf {ps : List NamedSchema} (h : ∀ p ∈ ps, Neat p.schema) :
    Neat (objectOf ps) := by
  apply Neat.object
  · intro e he
    obtain ⟨p, hp, heq⟩ := exists_of_property he
    exact heq ▸ h p hp
  · intro name hname
    obtain ⟨p, hp, rfl⟩ := List.mem_map.mp hname
    exact mem_properties.mpr (List.mem_map_of_mem (List.mem_of_mem_filter hp))
  · intro s hs
    cases hs

/-- A schema of a type. It can be made nullable if the type is neither null nor a union. -/
structure Fits (t : Ty) (s : Schema) : Prop where
  neat : Neat s
  nullable : t.isNull = false → t.isUnion = false → Neat (s.setNullable true)

theorem Fits.plain {t : Ty} {type : Plain} (h : type ≠ .null) : Fits t (.ofPlain type) :=
  ⟨.plain fun _ => h, fun _ _ => .plain fun _ => h⟩

theorem Fits.array {t : Ty} {items : Schema} (h : Neat items) : Fits t (.array .none items) :=
  ⟨.array h, fun _ _ => .array h⟩

theorem Fits.object {t : Ty} {properties : List (String × Schema)} {required : List String}
    {additional : Option Schema} (h : Neat (.object .none properties required additional)) :
    Fits t (.object .none properties required additional) := by
  cases h with
  | object hproperties hrequired hadditional =>
    exact ⟨.object hproperties hrequired hadditional,
      fun _ _ => .object hproperties hrequired hadditional⟩

private theorem neat_withAdditional {value : Schema} (h : Neat value) :
    Neat (.object .none [] [] (some value)) := by
  apply Neat.object (List.forall_mem_nil _) (List.forall_mem_nil _)
  intro s hs
  cases hs
  exact h

private theorem fits_mapSchema {t : Ty} {key value : Schema} (h : Neat value) :
    Fits t (mapSchema key value) := by
  unfold mapSchema
  split
  · exact .array h
  · exact .object (neat_withAdditional h)

/-! Types. -/

/-- The run ends well wherever it starts, registers nothing, and its result has `Q`. -/
def Makes {α : Type} (x : Generation α) (Q : α → Prop) : Prop :=
  ∀ c, ∃ a, ends x c = (.ok a, c) ∧ Q a

namespace Makes

variable {α β : Type} {x : Generation α} {Q : α → Prop} {R : β → Prop}

theorem pure {a : α} (h : Q a) : Makes (pure a) Q := fun _ => ⟨a, rfl, h⟩

theorem bind (h : Makes x Q) {f : α → Generation β} (hnext : ∀ a, Q a → Makes (f a) R) :
    Makes (x >>= f) R := by
  intro c
  obtain ⟨a, hx, ha⟩ := h c
  rw [ends_bind_ok hx]
  exact hnext a ha c

theorem inside (h : Makes x Q) : Makes (inside x) Q := by
  intro c
  obtain ⟨a, hx, ha⟩ := h c
  refine ⟨a, ?_, ha⟩
  rw [ends_inside, hx]
  rfl

theorem extended {x : Generation Schema} {Q : Schema → Prop} (h : Makes x Q) (t : Ty) :
    Makes (extended askPlainly [] t x) Q :=
  h.bind fun _ hs => pure hs

end Makes

/-- The member of a union that is made nullable is not null. -/
theorem isNull_of_pairing {a b : Ty} {first : Bool} (h : pairing [a, b] = .notNull first) :
    (if first then a else b).isNull = false := by
  rw [pairing] at h
  cases ha : a.isNull <;> cases hb : b.isNull <;> simp [ha, hb] at h <;> subst h <;> simp [ha, hb]

-- The induction is on the type. The members of a union are no unions, so that the one that is made
-- nullable has no alternatives.
mutual

private theorem builtIn_makes : ∀ t : Ty, t.Every Ty.UnionNode →
    Makes (builtIn askPlainly [] t) (Fits t)
  | .array items, ht => by
    have hitems := (Ty.every_array.mp ht).2
    rw [builtIn]
    split
    · exact (firstSchema_makes items hitems).bind fun s hs => .pure (.array hs)
    · apply (itemSchemas_makes 0 items hitems).bind
      intro ps hps
      exact .pure (.object (neat_objectOf hps))
  | .map none value, ht => by
    have hvalue := builtIn_makes value (Ty.every_map.mp ht).2.2
    rw [builtIn]
    exact (hvalue.extended value).bind fun s hs => .pure (.array hs.neat)
  | .map (some key) value, ht => by
    have hvalue := builtIn_makes value (Ty.every_map.mp ht).2.2
    have hkey := builtIn_makes key ((Ty.every_map.mp ht).2.1 key rfl)
    rw [builtIn]
    apply (hvalue.extended value).bind
    intro v hv
    exact (hkey.extended key).bind fun k _ => .pure (fits_mapSchema hv.neat)
  | .union types, ht => by
    have hnormal : Ty.Normal types := (Ty.every_union.mp ht).1
    have htypes := (Ty.every_union.mp ht).2
    rw [builtIn]
    cases hpairing : pairing types with
    | onlyNulls => exact (not_every_of_onlyNulls hpairing ht).elim
    | notNull first =>
      apply (eitherSchema_makes first types htypes hnormal.flat hpairing).bind
      intro s hs
      exact .pure ⟨hs, fun _ hunion => nomatch hunion⟩
    | other =>
      apply (schemas_makes types htypes).inside.bind
      intro ss hss
      have hlength : 2 ≤ ss.length := hss.1 ▸ hnormal.two_le
      exact .pure ⟨.anyOf rfl hlength hss.2, fun _ hunion => nomatch hunion⟩
  | .intersection types, ht => by
    have htypes := (Ty.every_intersection.mp ht).2
    rw [builtIn]
    apply (schemas_makes types htypes).inside.bind
    intro ss hss
    exact .pure ⟨.allOf hss.2, fun _ _ => .allOf hss.2⟩
  | .string _, _ | .float _, _ | .int _, _ | .boolean, _ | .unknown, _ | .function _ _, _ => by
    rw [builtIn]
    exact .pure (.plain (by decide))
  | .null, _ => by
    rw [builtIn]
    exact .pure ⟨.plain (fun h => nomatch h), fun hnull => nomatch hnull⟩
  | .object _ _, _ => by
    rw [builtIn]
    exact .pure (.object (neat_objectOf (List.forall_mem_nil _)))

private theorem schemas_makes : ∀ ts : List Ty, (∀ t ∈ ts, t.Every Ty.UnionNode) →
    Makes (schemas askPlainly [] ts) fun ss => ss.length = ts.length ∧ ∀ s ∈ ss, Neat s
  | [], _ => by
    rw [schemas]
    exact .pure ⟨rfl, List.forall_mem_nil _⟩
  | t :: ts, hts => by
    rw [List.forall_mem_cons] at hts
    rw [schemas]
    apply ((builtIn_makes t hts.1).extended t).bind
    intro s hs
    apply (schemas_makes ts hts.2).bind
    intro ss hss
    exact .pure ⟨congrArg Nat.succ hss.1, List.forall_mem_cons.mpr ⟨hs.neat, hss.2⟩⟩

private theorem eitherSchema_makes (first : Bool) :
    ∀ ts : List Ty, (∀ t ∈ ts, t.Every Ty.UnionNode) →
    (∀ t ∈ ts, t.isUnion = false) → pairing ts = .notNull first →
    Makes (eitherSchema askPlainly [] first ts) fun s => Neat (s.setNullable true)
  | [a, b], hts, hflat, hpairing => by
    have hnull := isNull_of_pairing hpairing
    have ha := (builtIn_makes a (hts a (by simp))).extended a
    have hb := (builtIn_makes b (hts b (by simp))).extended b
    rw [eitherSchema]
    intro c
    cases first with
    | true =>
      obtain ⟨s, hs, hfits⟩ := ha c
      exact ⟨s, hs, hfits.nullable hnull (hflat a (by simp))⟩
    | false =>
      obtain ⟨s, hs, hfits⟩ := hb c
      exact ⟨s, hs, hfits.nullable hnull (hflat b (by simp))⟩
  | [], _, _, hpairing | [_], _, _, hpairing | _ :: _ :: _ :: _, _, _, hpairing => nomatch hpairing

private theorem firstSchema_makes : ∀ items : List Item, (∀ i ∈ items, i.value.Every Ty.UnionNode) →
    Makes (firstSchema askPlainly [] items) Neat
  | [], _ => .pure (.plain fun h => nomatch h)
  | .mk _ value _ _ _ :: _, hitems => by
    have hvalue := (builtIn_makes value (hitems _ List.mem_cons_self)).extended value
    rw [firstSchema]
    intro c
    obtain ⟨s, hs, hfits⟩ := hvalue c
    exact ⟨s, hs, hfits.neat⟩

private theorem itemSchemas_makes (next : Int) : ∀ items : List Item,
    (∀ i ∈ items, i.value.Every Ty.UnionNode) →
    Makes (itemSchemas askPlainly [] next items) fun ps => ∀ p ∈ ps, Neat p.schema
  | [], _ => .pure (List.forall_mem_nil _)
  | .mk key value isOptional description var :: rest, hitems => by
    rw [List.forall_mem_cons] at hitems
    rw [itemSchemas]
    apply ((builtIn_makes value hitems.1).extended value).bind
    intro s hs
    apply (itemSchemas_makes (numberKey next key).2 rest hitems.2).bind
    intro ps hps
    exact .pure (List.forall_mem_cons.mpr ⟨hs.neat.describe description, hps⟩)

end

/-! Documents. -/

/-- A schema that stands directly inside another one, in their documents. -/
inductive Child : Json → Json → Prop where
  | items {members j} : ("items", j) ∈ members → Child (.obj members) j
  | additional {members j} : ("additionalProperties", j) ∈ members → Child (.obj members) j
  | property {members properties name j} : ("properties", .obj properties) ∈ members →
    (name, j) ∈ properties → Child (.obj members) j
  | anyOf {members nodes j} : ("anyOf", .arr nodes) ∈ members → j ∈ nodes → Child (.obj members) j
  | allOf {members nodes j} : ("allOf", .arr nodes) ∈ members → j ∈ nodes → Child (.obj members) j

/-- The members of a document that is in order. -/
structure Sound (members : List (String × Json)) : Prop where
  anyOf : ∀ j, ("anyOf", j) ∈ members → ∃ nodes, j = .arr nodes ∧ 2 ≤ nodes.length
  required : ∀ j, ("required", j) ∈ members →
    ∃ (names : List String) (properties : List (String × Json)), j = .arr (names.map .str) ∧
      ("properties", .obj properties) ∈ members ∧ ∀ name ∈ names, name ∈ properties.map Prod.fst
  items : ("type", .str "array") ∈ members → ∃ j, ("items", j) ∈ members
  nullable : ∀ j, ("nullable", j) ∈ members →
    ("type", .str "null") ∉ members ∧ ∀ nodes, ("anyOf", nodes) ∉ members

/-- The names of the members that every document can have. -/
def headNames : List String := ["type", "format", "description", "nullable"]

section

variable {typeName name : String} {n : Notes} {j : Json} {own : List (String × Json)}

private theorem head_cases (h : (name, j) ∈ headMembers typeName n) :
    name ∈ headNames ∧ (name = "type" → j = .str typeName) ∧
      (name = "nullable" → n.nullable = true) := by
  rw [headMembers, List.mem_append, List.mem_append, List.mem_append] at h
  rcases h with ((h | h) | h) | h
  all_goals
    split at h
    · simp_all [headNames]
    · simp_all [headNames]

private theorem mem_of_head_append (h : (name, j) ∈ headMembers typeName n ++ own)
    (hname : name ∉ headNames) : (name, j) ∈ own := by
  rcases List.mem_append.mp h with h | h
  · exact (hname (head_cases h).1).elim
  · exact h

/-- No schema stands inside of the type or the notes. -/
theorem child_of_head_append (h : Child (.obj (headMembers typeName n ++ own)) j) :
    Child (.obj own) j := by
  cases h with
  | items h => exact .items (mem_of_head_append h (by decide))
  | additional h => exact .additional (mem_of_head_append h (by decide))
  | property h hj => exact .property (mem_of_head_append h (by decide)) hj
  | anyOf h hj => exact .anyOf (mem_of_head_append h (by decide)) hj
  | allOf h hj => exact .allOf (mem_of_head_append h (by decide)) hj

/-- The type and the notes go with members that are in order, if the type is not null where it is
nullable, and if there are no alternatives then. -/
theorem Sound.head_append (hown : Sound own) (hnames : ∀ e ∈ own, e.1 ∉ headNames)
    (hitems : typeName = "array" → ∃ j, ("items", j) ∈ own)
    (hnullable : n.nullable = true → typeName ≠ "null" ∧ ∀ nodes, ("anyOf", nodes) ∉ own) :
    Sound (headMembers typeName n ++ own) := by
  have htype : ∀ text, ("type", .str text) ∈ headMembers typeName n ++ own → typeName = text := by
    intro text h
    rcases List.mem_append.mp h with h | h
    · have hsame := (head_cases h).2.1 rfl
      cases hsame
      rfl
    · exact (hnames _ h List.mem_cons_self).elim
  constructor
  · intro j h
    exact hown.anyOf j (mem_of_head_append h (by decide))
  · intro j h
    obtain ⟨names, properties, hj, hmem, hall⟩ :=
      hown.required j (mem_of_head_append h (by decide))
    exact ⟨names, properties, hj, List.mem_append_right _ hmem, hall⟩
  · intro h
    obtain ⟨j, hj⟩ := hitems (htype "array" h)
    exact ⟨j, List.mem_append_right _ hj⟩
  · intro j h
    have hnotes : n.nullable = true := by
      rcases List.mem_append.mp h with h | h
      · exact (head_cases h).2.2 rfl
      · exact (hnames _ h (by simp [headNames])).elim
    have hfree := hnullable hnotes
    constructor
    · intro hnull
      exact hfree.1 (htype "null" hnull)
    · intro nodes hnodes
      exact hfree.2 nodes (mem_of_head_append hnodes (by decide))

end

namespace Schema

variable {registered : List String} {j : Json}

private theorem jsons_eq_map (ss : List Schema) :
    jsons registered ss = ss.map (json registered) := by
  induction ss with
  | nil => rw [jsons, List.map_nil]
  | cons s ss ih => rw [jsons, ih, List.map_cons]

private theorem propertyMembers_eq_map (ps : List (String × Schema)) :
    propertyMembers registered ps = ps.map fun p => (p.1, json registered p.2) := by
  induction ps with
  | nil => rw [propertyMembers, List.map_nil]
  | cons p ps ih =>
    obtain ⟨name, s⟩ := p
    rw [propertyMembers, ih, List.map_cons]

/-- The members that only objects have. -/
def objectMembers (registered : List String) (properties : List (String × Schema))
    (required : List String) (additional : Option Schema) : List (String × Json) :=
  (if properties.isEmpty then []
    else [("properties", .obj (propertyMembers registered properties))]) ++
    (requiredMember required ++ additionalMember registered additional)

section

variable {properties : List (String × Schema)} {required : List String}
  {additional : Option Schema}

private theorem json_object (n : Notes) :
    json registered (.object n properties required additional) =
    .obj (headMembers "object" n ++ objectMembers registered properties required additional) := by
  rw [json, objectMembers, List.append_assoc, List.append_assoc]

private theorem objectMembers_cases {name : String}
    (h : (name, j) ∈ objectMembers registered properties required additional) :
    name = "properties" ∧ j = .obj (propertyMembers registered properties) ∨
    name = "required" ∧ required ≠ [] ∧ j = .arr (required.map .str) ∨
    name = "additionalProperties" ∧ ∃ s ∈ additional, j = json registered s := by
  rw [objectMembers, List.mem_append, List.mem_append] at h
  rcases h with h | h | h
  · left
    split at h
    · cases h
    · simpa using h
  · right
    left
    rw [requiredMember] at h
    split at h
    · cases h
    · simp_all
  · right
    right
    cases additional with
    | none => cases h
    | some s => simpa [additionalMember] using h

end

end Schema

section

variable {s : Schema} {registered : List String} {j : Json}

private theorem exists_part_of_jsons {items : List Schema} (hitems : ∀ s ∈ items, Neat s)
    (hj : j ∈ Schema.jsons registered items) : ∃ part, Neat part ∧ j = part.json registered := by
  rw [Schema.jsons_eq_map] at hj
  obtain ⟨part, hpart, rfl⟩ := List.mem_map.mp hj
  exact ⟨part, hitems part hpart, rfl⟩

/-- What stands inside the document of a schema is the document of one of its parts. -/
theorem Neat.child (h : Neat s) (hchild : Child (s.json registered) j) :
    ∃ part, Neat part ∧ j = part.json registered := by
  cases h with
  | plain _ =>
    rw [Schema.json, ← List.append_nil (headMembers _ _)] at hchild
    cases child_of_head_append hchild <;> contradiction
  | @array notes items hitems =>
    rw [Schema.json] at hchild
    have hj : j = items.json registered := by
      cases child_of_head_append hchild <;> simp_all
    exact ⟨items, hitems, hj⟩
  | @object notes properties required additional hproperties _ hadditional =>
    rw [Schema.json_object] at hchild
    cases child_of_head_append hchild with
    | property h hj =>
      have hmembers := Schema.objectMembers_cases h
      simp only [String.reduceEq, false_and, true_and, or_false, Json.obj.injEq] at hmembers
      rw [hmembers, Schema.propertyMembers_eq_map] at hj
      obtain ⟨p, hp, heq⟩ := List.mem_map.mp hj
      cases heq
      exact ⟨p.2, hproperties p hp, rfl⟩
    | additional h =>
      have hmembers := Schema.objectMembers_cases h
      simp only [String.reduceEq, false_and, true_and, false_or] at hmembers
      obtain ⟨part, hpart, heq⟩ := hmembers
      exact ⟨part, hadditional part hpart, heq⟩
    | items h => simpa using Schema.objectMembers_cases h
    | anyOf h => simpa using Schema.objectMembers_cases h
    | allOf h => simpa using Schema.objectMembers_cases h
  | @anyOf notes items _ _ hitems =>
    rw [Schema.json] at hchild
    have hj : j ∈ Schema.jsons registered items := by
      cases child_of_head_append hchild <;> simp_all
    exact exists_part_of_jsons hitems hj
  | @allOf notes items hitems =>
    rw [Schema.json] at hchild
    have hj : j ∈ Schema.jsons registered items := by
      cases child_of_head_append hchild <;> simp_all
    exact exists_part_of_jsons hitems hj

private theorem sound_objectMembers {properties : List (String × Schema)} {required : List String}
    {additional : Option Schema} (hrequired : ∀ name ∈ required, name ∈ properties.map Prod.fst) :
    Sound (Schema.objectMembers registered properties required additional) := by
  constructor
  · intro j h
    simpa using Schema.objectMembers_cases h
  · intro j h
    have hmembers := Schema.objectMembers_cases h
    simp only [String.reduceEq, false_and, true_and, false_or, or_false] at hmembers
    -- Something is required, so that there are properties.
    have hproperties : properties.isEmpty = false := by
      obtain ⟨name, hname⟩ := List.exists_mem_of_ne_nil required hmembers.1
      obtain ⟨p, hp, -⟩ := List.mem_map.mp (hrequired name hname)
      exact List.isEmpty_eq_false_iff_exists_mem.mpr ⟨p, hp⟩
    refine ⟨required, Schema.propertyMembers registered properties, hmembers.2, ?_, ?_⟩
    · simp [Schema.objectMembers, hproperties]
    · rw [Schema.propertyMembers_eq_map, List.map_map]
      exact hrequired
  · intro h
    simpa using Schema.objectMembers_cases h
  · intro j h
    simpa using Schema.objectMembers_cases h

theorem Neat.sound (h : Neat s) : ∃ members, s.json registered = .obj members ∧ Sound members := by
  have hempty : Sound [] := by
    constructor <;> simp
  cases h with
  | @plain type notes htype =>
    refine ⟨headMembers type.typeName notes ++ [], ?_, ?_⟩
    · rw [Schema.json, List.append_nil]
    · apply hempty.head_append (List.forall_mem_nil _)
      · intro harray
        cases type <;> simp [Plain.typeName] at harray
      · intro hnullable
        have hnull := htype hnullable
        constructor
        · cases type <;> simp_all [Plain.typeName]
        · exact fun _ h => nomatch h
  | @array notes items _ =>
    refine ⟨_, by rw [Schema.json], ?_⟩
    have hown : Sound [("items", items.json registered)] := by
      constructor <;> simp
    apply hown.head_append
    · simp [headNames]
    · intro _
      exact ⟨_, List.mem_cons_self⟩
    · simp
  | @object notes properties required additional _ hrequired _ =>
    refine ⟨_, Schema.json_object notes, ?_⟩
    apply (sound_objectMembers hrequired).head_append
    · intro e he
      rcases Schema.objectMembers_cases he with h | h | h <;> simp [h.1, headNames]
    · simp
    · intro _
      refine ⟨by simp, fun nodes h => ?_⟩
      simpa using Schema.objectMembers_cases h
  | @anyOf notes items hnullable hlength _ =>
    refine ⟨_, by rw [Schema.json], ?_⟩
    have hown : Sound [("anyOf", .arr (Schema.jsons registered items))] := by
      constructor <;> simp [Schema.jsons_eq_map, hlength]
    apply hown.head_append
    · simp [headNames]
    · simp
    · simp [hnullable]
  | @allOf notes items _ =>
    refine ⟨_, by rw [Schema.json], ?_⟩
    have hown : Sound [("allOf", .arr (Schema.jsons registered items))] := by
      constructor <;> simp
    apply hown.head_append
    · simp [headNames]
    · simp
    · simp

/-- Going on from part to part, only documents of schemas that are in order are met. -/
theorem Neat.descendant (h : Neat s)
    (hreach : Relation.ReflTransGen Child (s.json registered) j) :
    ∃ part, Neat part ∧ j = part.json registered := by
  induction hreach with
  | refl => exact ⟨s, h, rfl⟩
  | tail _ hchild ih =>
    obtain ⟨part, hpart, rfl⟩ := ih
    exact hpart.child hchild

end

/-- A type whose unions are in order has a schema without extensions, and nothing is registered. In
its document, all schemas at every depth are in order. -/
theorem transform_sound (t : Ty) (ht : t.Every Ty.UnionNode) (c : Components) :
    ∃ s, ends (transform [] t) c = (.ok s, c) ∧ ∀ registered node,
      Relation.ReflTransGen Child (s.json registered) node →
        ∃ members, node = .obj members ∧ Sound members := by
  obtain ⟨s, hs, hfits⟩ := (builtIn_makes t ht).extended t c
  refine ⟨s, hs, fun registered node hreach => ?_⟩
  obtain ⟨part, hpart, rfl⟩ := hfits.neat.descendant hreach
  exact hpart.sound

/-- `array{a: int|string|null}|null` -/
def nestedUnion : Ty :=
  .union [.array [.of (some (.str "a")) (.union [.int none, .string none, .null])], .null]

def nestedSchema : Schema :=
  .object ⟨true, "", ""⟩
    [("a", .anyOf .none [.ofPlain .integer, .ofPlain .string, .ofPlain .null])] ["a"] none

def nestedAlternatives : List (String × Json) :=
  [("anyOf", .arr [.obj [("type", .str "integer")], .obj [("type", .str "string")],
    .obj [("type", .str "null")]])]

theorem nestedUnion_sound : nestedUnion.Every Ty.UnionNode ∧
    ends (transform [] nestedUnion) .empty = (.ok nestedSchema, .empty) ∧
    Relation.ReflTransGen Child (nestedSchema.json []) (.obj nestedAlternatives) ∧
    Sound nestedAlternatives := by
  have hinner : Ty.Normal [.int none, .string none, .null] :=
    ⟨by decide, by simp [Ty.isUnion], by simp [Ty.same]⟩
  have houter : Ty.Normal [.array [.of (some (.str "a")) (.union [.int none, .string none, .null])],
      .null] := ⟨by decide, by simp [Ty.isUnion], by simp [Ty.same]⟩
  have hnodes : nestedUnion.Every Ty.UnionNode := by
    simp only [nestedUnion, Item.of, Ty.Every, Ty.parts, Ty.partsOfAll, Ty.partsOfItems,
      List.append_nil, List.cons_append, List.nil_append, List.forall_mem_cons, List.not_mem_nil,
      false_imp_iff, implies_true, Ty.UnionNode, and_true, true_and]
    exact ⟨houter, hinner⟩
  have hchild : Child (nestedSchema.json []) (.obj nestedAlternatives) := by
    have hdocument : nestedSchema.json [] = .obj [("type", .str "object"),
      ("nullable", .bool true), ("properties", .obj [("a", .obj nestedAlternatives)]),
      ("required", .arr [.str "a"])] := rfl
    rw [hdocument]
    exact .property (List.mem_of_getElem? (i := 2) rfl) List.mem_cons_self
  obtain ⟨s, hs, hsound⟩ := transform_sound nestedUnion hnodes .empty
  have hschema : ends (transform [] nestedUnion) .empty = (.ok nestedSchema, .empty) := rfl
  rw [hschema] at hs
  cases hs
  obtain ⟨members, hmembers, halternatives⟩ := hsound [] _ (.single hchild)
  cases hmembers
  exact ⟨hnodes, hschema, .single hchild, halternatives⟩

end PhpTypes.OpenApi
