import Mathlib.Data.List.Induction
import PhpTypes.OpenApi.FromType
import PhpTypes.Proofs.ComponentNames

/-!
# Questions to extensions

An extension is asked for the schema of a type only as long as the name that it registers the schema
with is free, so that no registered schema is replaced. To speak of the questions, the definitions
are run with a way of asking that takes notes, beside the plain one. Of the extensions that accept a
type the last one decides, and each is given the schema of the one before it.
-/

namespace PhpTypes.OpenApi

/-! References. -/

namespace Schema

mutual

/-- The full names that a schema refers to, at any depth. -/
def references : Schema → List String
  | .plain _ _ => []
  | .array _ items => references items
  | .object _ properties _ additional =>
    propertyReferences properties ++ additionalReferences additional
  | .anyOf _ items => referencesOfAll items
  | .allOf _ items => referencesOfAll items
  | .reference _ name => [name]

def referencesOfAll : List Schema → List String
  | [] => []
  | s :: ss => references s ++ referencesOfAll ss

def propertyReferences : List (String × Schema) → List String
  | [] => []
  | (_, s) :: rest => references s ++ propertyReferences rest

def additionalReferences : Option Schema → List String
  | none => []
  | some s => references s

end

private theorem mem_referencesOfAll {name : String} {ss : List Schema} :
    name ∈ referencesOfAll ss ↔ ∃ s ∈ ss, name ∈ s.references := by
  induction ss with
  | nil => simp [referencesOfAll]
  | cons s ss ih => simp [referencesOfAll, ih]

private theorem mem_propertyReferences {name : String} {ps : List (String × Schema)} :
    name ∈ propertyReferences ps ↔ ∃ p ∈ ps, name ∈ p.2.references := by
  induction ps with
  | nil => simp [propertyReferences]
  | cons p ps ih => simp [propertyReferences, ih]

private theorem references_mapNotes (f : Notes → Notes) (s : Schema) :
    (s.mapNotes f).references = s.references := by
  cases s <;> simp [mapNotes, references]

end Schema

/-- All that a schema refers to is registered. -/
def Registered (c : Components) (s : Schema) : Prop := ∀ name ∈ s.references, c.has name = true

theorem registered_plain (c : Components) (type : Plain) : Registered c (.ofPlain type) := by
  simp [Registered, Schema.ofPlain, Schema.references]

theorem Registered.mapNotes {c : Components} {s : Schema} (h : Registered c s)
    (f : Notes → Notes) : Registered c (s.mapNotes f) := by
  rw [Registered, Schema.references_mapNotes]
  exact h

theorem Registered.describe {c : Components} {s : Schema} (h : Registered c s) (text : String) :
    Registered c (describe text s) := by
  unfold OpenApi.describe
  split
  · exact h
  · exact h.mapNotes _

theorem Registered.array {c : Components} {s : Schema} (h : Registered c s) (n : Notes) :
    Registered c (.array n s) := by
  rw [Registered, Schema.references]
  exact h

theorem Registered.mapSchema {c : Components} {value : Schema} (h : Registered c value)
    (key : Schema) : Registered c (mapSchema key value) := by
  unfold OpenApi.mapSchema
  split
  · exact h.array .none
  · simpa [Registered, Schema.references, Schema.propertyReferences,
      Schema.additionalReferences] using h

/-- The schema of a property is one of the given ones. -/
theorem exists_of_property {ps : List NamedSchema} {e : String × Schema}
    (he : e ∈ (Dict.ofList (ps.map fun p => (p.name, p.schema))).entries) :
    ∃ p ∈ ps, p.schema = e.2 := by
  have hvalue : e.2 ∈ (Dict.ofList (ps.map fun p => (p.name, p.schema))).values :=
    List.mem_map_of_mem he
  rcases Dict.mem_values_setAll hvalue with hempty | hpair
  · cases hempty
  · rw [List.map_map] at hpair
    exact List.mem_map.mp hpair

theorem registered_objectOf {c : Components} {ps : List NamedSchema}
    (h : ∀ p ∈ ps, Registered c p.schema) : Registered c (objectOf ps) := by
  intro name hname
  simp only [objectOf, Schema.references, Schema.additionalReferences, List.append_nil] at hname
  obtain ⟨e, he, hname⟩ := Schema.mem_propertyReferences.mp hname
  obtain ⟨p, hp, heq⟩ := exists_of_property he
  exact h p hp name (heq ▸ hname)

theorem registered_of_all {c : Components} {s : Schema} {ss : List Schema}
    (hs : s.references = Schema.referencesOfAll ss) (h : ∀ s ∈ ss, Registered c s) :
    Registered c s := by
  intro name hname
  rw [hs] at hname
  obtain ⟨s, hs, hname⟩ := Schema.mem_referencesOfAll.mp hname
  exact h s hs name hname

/-! Questions. -/

/-- A question to an extension, with the schemas that are registered when it is asked. -/
structure Question where
  extension : Extension
  type : Ty
  previous : Option Schema
  registry : Components

namespace Question

/-- The name that the answer is to be registered with. -/
def name? (q : Question) : Option String := q.extension.reference q.type

def answer? (q : Question) : Option Schema := q.extension.toSchema q.type q.previous

/-- What the answer adds to the registered schemas. -/
def additions (q : Question) : List (String × Titled) :=
  (q.name?.bind fun name => q.answer?.map fun s => (name, .of s)).toList

/-- An extension of the list is asked, about a type that it handles, and the name for the answer
is free. -/
structure Proper (es : List Extension) (q : Question) : Prop where
  mem : q.extension ∈ es
  handles : q.extension.handles q.type = true
  free : ∀ name, q.name? = some name → q.registry.has name = false

end Question

/-- From some registered schemas to others by proper questions, each of them asked in the state that
the answers before it have led to. -/
inductive History (es : List Extension) : Components → List Question → Components → Prop where
  | nil {c} : History es c [] c
  | cons {q qs c'} : q.Proper es → History es (q.registry.addAll q.additions) qs c' →
    History es q.registry (q :: qs) c'

/-- Schemas that are registered stay as they are. -/
def Keeps (c c' : Components) : Prop := ∀ name s, c.get? name = some s → c'.get? name = some s

theorem Keeps.trans {c₁ c₂ c₃ : Components} (h : Keeps c₁ c₂) (h' : Keeps c₂ c₃) : Keeps c₁ c₃ :=
  fun name s hs => h' name s (h name s hs)

theorem Keeps.has {c c' : Components} (h : Keeps c c') {name : String} (hname : c.has name = true) :
    c'.has name = true := by
  obtain ⟨s, hs⟩ := Option.isSome_iff_exists.mp hname
  exact Option.isSome_iff_exists.mpr ⟨s, h name s hs⟩

theorem Keeps.has_eq_false {c c' : Components} (h : Keeps c c') {name : String}
    (hname : c'.has name = false) : c.has name = false := by
  by_contra hhas
  rw [h.has (by simpa using hhas)] at hname
  cases hname

theorem Registered.keeps {c c' : Components} {s : Schema} (h : Registered c s) (hc : Keeps c c') :
    Registered c' s :=
  fun name hname => hc.has (h name hname)

private theorem keeps_add {c : Components} {name : String} (h : c.has name = false) (s : Titled) :
    Keeps c (c.add name s) := by
  intro n u hu
  have hne : n ≠ name := by
    rintro rfl
    have hhas : c.has n = true := Option.isSome_iff_exists.mpr ⟨u, hu⟩
    rw [h] at hhas
    cases hhas
  exact (Dict.get?_set_ne c.schemas hne s).trans hu

private theorem has_add_self (c : Components) (name : String) (s : Titled) :
    (c.add name s).has name = true :=
  Option.isSome_iff_exists.mpr ⟨s, Dict.get?_set_self c.schemas name s⟩

theorem Question.additions_of_unanswered {q : Question} (h : q.answer? = none) :
    q.additions = [] := by
  rw [additions, h]
  cases q.name? <;> rfl

theorem Question.additions_of_unnamed {q : Question} (h : q.name? = none) : q.additions = [] := by
  rw [additions, h]
  rfl

theorem Question.additions_of_answer {q : Question} {name : String} {s : Schema}
    (hname : q.name? = some name) (hanswer : q.answer? = some s) :
    q.additions = [(name, .of s)] := by
  rw [additions, hname, hanswer]
  rfl

/-- A question adds one schema under its name, or nothing. -/
theorem Question.additions_cases (q : Question) :
    q.additions = [] ∨ ∃ name s, q.name? = some name ∧ q.additions = [(name, s)] := by
  cases hname : q.name? with
  | none => exact .inl (additions_of_unnamed hname)
  | some name =>
    cases hanswer : q.answer? with
    | none => exact .inl (additions_of_unanswered hanswer)
    | some s => exact .inr ⟨name, _, rfl, additions_of_answer hname hanswer⟩

theorem Question.Proper.keeps {es : List Extension} {q : Question} (h : q.Proper es) :
    Keeps q.registry (q.registry.addAll q.additions) := by
  rcases q.additions_cases with hnone | ⟨name, s, hname, hadd⟩
  · rw [hnone]
    exact fun _ _ hs => hs
  · rw [hadd]
    exact keeps_add (h.free name hname) s

namespace Components

private theorem addAll_append (c : Components) (as bs : List (String × Titled)) :
    c.addAll (as ++ bs) = (c.addAll as).addAll bs :=
  List.foldl_append

end Components

namespace History

variable {es : List Extension} {c c₁ c' : Components} {qs rs : List Question}

theorem append (h : History es c qs c₁) (h' : History es c₁ rs c') :
    History es c (qs ++ rs) c' := by
  induction h with
  | nil => exact h'
  | cons hq _ ih => exact .cons hq (ih h')

theorem single {q : Question} (hq : q.Proper es) {adds : List (String × Titled)}
    (hadds : q.additions = adds) : History es q.registry [q] (q.registry.addAll adds) :=
  hadds ▸ .cons hq .nil

theorem split (h : History es c (qs ++ rs) c') :
    ∃ c₁, History es c qs c₁ ∧ History es c₁ rs c' := by
  induction qs generalizing c with
  | nil => exact ⟨c, .nil, h⟩
  | cons q qs ih =>
    cases h with
    | cons hq hrest =>
      obtain ⟨c₁, hqs, hrs⟩ := ih hrest
      exact ⟨c₁, .cons hq hqs, hrs⟩

theorem keeps (h : History es c qs c') : Keeps c c' := by
  induction h with
  | nil => exact fun _ _ hs => hs
  | cons hq _ ih => exact hq.keeps.trans ih

/-- The registered schemas are those at the start and those that were added. -/
theorem eq_addAll (h : History es c qs c') : c' = c.addAll (qs.flatMap Question.additions) := by
  induction h with
  | nil => rfl
  | cons _ _ ih => rw [List.flatMap_cons, Components.addAll_append, ← ih]

/-- Nothing is added under a name that is registered at the start. -/
theorem additions_free (h : History es c qs c') :
    ∀ a ∈ qs.flatMap Question.additions, c.has a.1 = false := by
  induction h with
  | nil => simp
  | @cons q qs c' hq _ ih =>
    intro a ha
    rw [List.flatMap_cons, List.mem_append] at ha
    rcases ha with ha | ha
    · rcases q.additions_cases with hnone | ⟨name, s, hname, hadd⟩
      · rw [hnone] at ha
        cases ha
      · rw [hadd, List.mem_singleton] at ha
        rw [ha]
        exact hq.free name hname
    · exact hq.keeps.has_eq_false (ih a ha)

/-- Nothing is added twice under one name. -/
theorem additions_nodup (h : History es c qs c') :
    ((qs.flatMap Question.additions).map Prod.fst).Nodup := by
  induction h with
  | nil => exact List.nodup_nil
  | @cons q qs c' hq hrest ih =>
    rw [List.flatMap_cons, List.map_append]
    rcases q.additions_cases with hnone | ⟨name, s, hname, hadd⟩
    · rw [hnone]
      exact ih
    · -- The name is taken from now on, so no later question can add under it.
      rw [hadd] at hrest ⊢
      refine List.nodup_cons.mpr ⟨fun hmem => ?_, ih⟩
      obtain ⟨a, ha, rfl⟩ := List.mem_map.mp hmem
      have hfree := hrest.additions_free a ha
      rw [show q.registry.addAll [(a.1, s)] = q.registry.add a.1 s from rfl, has_add_self] at hfree
      cases hfree

/-- Each question is asked in the state that the answers before it have led to. -/
theorem question (h : History es c qs c') {before after : List Question} {q : Question}
    (hqs : qs = before ++ q :: after) :
    q.registry = c.addAll (before.flatMap Question.additions) ∧ q.Proper es ∧
      Keeps q.registry c' := by
  subst hqs
  obtain ⟨c₁, hbefore, hrest⟩ := h.split
  have hkeeps := hrest.keeps
  cases hrest with
  | cons hq _ => exact ⟨hbefore.eq_addAll, hq, hkeeps⟩

end History

/-! One extension. -/

namespace Extension

variable (e : Extension) (t : Ty) (previous : Option Schema) (c : Components)

/-- An extension accepts a type: its schema is registered already, or it gives one, which is then
registered if it has a name for it. -/
inductive Accepts : Schema → Components → Prop where
  | known {name} : e.handles t = true → e.reference t = some name → c.has name = true →
    Accepts (.reference (e.referenceKind t) name) c
  | answered {s} : e.handles t = true → e.reference t = none → e.toSchema t previous = some s →
    Accepts s c
  | added {name s} : e.handles t = true → e.reference t = some name → c.has name = false →
    e.toSchema t previous = some s → Accepts (schemaReference name) (c.add name (.of s))

/-- An extension declines a type, without being asked or when it is asked. -/
inductive Declines : Prop where
  | passed : e.handles t = false → Declines
  | unanswered : e.handles t = true → (∀ name, e.reference t = some name → c.has name = false) →
    e.toSchema t previous = none → Declines

/-- The answers refer to nothing but what the schemas before them refer to. -/
def RefersToPrevious : Prop :=
  ∀ t previous s, e.toSchema t previous = some s →
    ∀ name ∈ s.references, ∃ p ∈ previous, name ∈ p.references

end Extension

/-! Runs. -/

/-- A run that takes notes of the questions. -/
abbrev Noted := ExceptT SchemaError (StateT Components (StateM (List Question)))

/-- Puts a question and takes a note of it. -/
def askNoting : Asking Noted := fun e t previous => do
  let c ← getThe Components
  modifyThe (List Question) (· ++ [⟨e, t, previous, c⟩])
  return e.toSchema t previous

variable {α β : Type}

/-- How a run ends. -/
def ends (x : Generation α) (c : Components) : Except SchemaError α × Components := x.run.run c

def endsNoted (x : Noted α) (c : Components) (notes : List Question) :
    (Except SchemaError α × Components) × List Question := (x.run.run c).run notes

section

variable {e : Extension} {t : Ty} (previous : Option Schema) (c : Components)

private theorem applyExtension_passed (h : e.handles t = false) (notes : List Question) :
    ends (applyExtension askPlainly t previous e) c = (.ok previous, c) ∧
      endsNoted (applyExtension askNoting t previous e) c notes = ((.ok previous, c), notes) := by
  unfold applyExtension
  rw [h]
  exact ⟨rfl, rfl⟩

variable (h : e.handles t = true)
include h

private theorem applyExtension_known {name : String} (href : e.reference t = some name)
    (hhas : c.has name = true) (notes : List Question) :
    ends (applyExtension askPlainly t previous e) c =
        (.ok (some (.reference (e.referenceKind t) name)), c) ∧
      endsNoted (applyExtension askNoting t previous e) c notes =
        ((.ok (some (.reference (e.referenceKind t) name)), c), notes) := by
  unfold applyExtension
  rw [h, href]
  constructor
  · change ends (if c.has name = true then _ else _) c = _
    rw [if_pos hhas]
    rfl
  · change endsNoted (if c.has name = true then _ else _) c notes = _
    rw [if_pos hhas]
    rfl

private theorem applyExtension_answered {s : Schema} (href : e.reference t = none)
    (hanswer : e.toSchema t previous = some s) (notes : List Question) :
    ends (applyExtension askPlainly t previous e) c = (.ok (some s), c) ∧
      endsNoted (applyExtension askNoting t previous e) c notes =
        ((.ok (some s), c), notes ++ [⟨e, t, previous, c⟩]) := by
  unfold applyExtension askPlainly askNoting
  rw [h, href, hanswer]
  exact ⟨rfl, rfl⟩

private theorem applyExtension_added {name : String} {s : Schema} (href : e.reference t = some name)
    (hfree : c.has name = false) (hanswer : e.toSchema t previous = some s)
    (notes : List Question) :
    ends (applyExtension askPlainly t previous e) c =
        (.ok (some (schemaReference name)), c.add name (.of s)) ∧
      endsNoted (applyExtension askNoting t previous e) c notes =
        ((.ok (some (schemaReference name)), c.add name (.of s)),
          notes ++ [⟨e, t, previous, c⟩]) := by
  unfold applyExtension askPlainly askNoting
  rw [h, href, hanswer]
  constructor
  · change ends (if c.has name = true then _ else _) c = _
    rw [if_neg (by simp [hfree])]
    rfl
  · change endsNoted (if c.has name = true then _ else _) c notes = _
    rw [if_neg (by simp [hfree])]
    rfl

private theorem applyExtension_unanswered
    (hfree : ∀ name, e.reference t = some name → c.has name = false)
    (hanswer : e.toSchema t previous = none) (notes : List Question) :
    ends (applyExtension askPlainly t previous e) c = (.ok previous, c) ∧
      endsNoted (applyExtension askNoting t previous e) c notes =
        ((.ok previous, c), notes ++ [⟨e, t, previous, c⟩]) := by
  unfold applyExtension askPlainly askNoting
  rw [h, hanswer]
  cases href : e.reference t with
  | none => exact ⟨rfl, rfl⟩
  | some name =>
    constructor
    · change ends (if c.has name = true then _ else _) c = _
      rw [if_neg (by simp [hfree name href])]
      rfl
    · change endsNoted (if c.has name = true then _ else _) c notes = _
      rw [if_neg (by simp [hfree name href])]
      rfl

end

/-- What one extension does to a run: it accepts or declines, by at most one proper question. -/
theorem applyExtension_step {es : List Extension} {e : Extension} (he : e ∈ es) (t : Ty)
    (previous : Option Schema) (c : Components) (notes : List Question) :
    ∃ r c' qs, ends (applyExtension askPlainly t previous e) c = (.ok r, c') ∧
      endsNoted (applyExtension askNoting t previous e) c notes = ((.ok r, c'), notes ++ qs) ∧
      History es c qs c' ∧
      ((∃ s, r = some s ∧ e.Accepts t previous c s c') ∨
        r = previous ∧ c' = c ∧ e.Declines t previous c) := by
  -- Whether there is a question does not depend on the answer, so that is settled first.
  let q : Question := ⟨e, t, previous, c⟩
  cases hhandles : e.handles t with
  | false =>
    obtain ⟨hplain, hnoted⟩ := applyExtension_passed previous c hhandles notes
    exact ⟨previous, c, [], hplain, by rw [hnoted, List.append_nil], .nil,
      .inr ⟨rfl, rfl, .passed hhandles⟩⟩
  | true =>
    by_cases hknown : ∃ name, e.reference t = some name ∧ c.has name = true
    · obtain ⟨name, href, hhas⟩ := hknown
      obtain ⟨hplain, hnoted⟩ := applyExtension_known previous c hhandles href hhas notes
      exact ⟨_, c, [], hplain, by rw [hnoted, List.append_nil], .nil,
        .inl ⟨_, rfl, .known hhandles href hhas⟩⟩
    · have hfree : ∀ name, e.reference t = some name → c.has name = false := by
        intro name href
        by_contra hhas
        exact hknown ⟨name, href, by simpa using hhas⟩
      have hproper : q.Proper es := ⟨he, hhandles, hfree⟩
      cases hanswer : e.toSchema t previous with
      | none =>
        obtain ⟨hplain, hnoted⟩ := applyExtension_unanswered previous c hhandles hfree hanswer notes
        exact ⟨previous, c, [q], hplain, hnoted,
          .single hproper (Question.additions_of_unanswered hanswer),
          .inr ⟨rfl, rfl, .unanswered hhandles hfree hanswer⟩⟩
      | some s =>
        cases href : e.reference t with
        | none =>
          obtain ⟨hplain, hnoted⟩ := applyExtension_answered previous c hhandles href hanswer notes
          exact ⟨some s, c, [q], hplain, hnoted,
            .single hproper (Question.additions_of_unnamed href),
            .inl ⟨s, rfl, .answered hhandles href hanswer⟩⟩
        | some name =>
          obtain ⟨hplain, hnoted⟩ :=
            applyExtension_added previous c hhandles href (hfree name href) hanswer notes
          exact ⟨_, _, [q], hplain, hnoted,
            .single hproper (Question.additions_of_answer href hanswer),
            .inl ⟨_, rfl, .added hhandles href (hfree name href) hanswer⟩⟩

/-! All extensions. -/

/-- The extensions are asked for a type one after the other. Each of them is given the schema of the
last one before it that accepted the type. -/
inductive Consulted (t : Ty) (c : Components) : List Extension → Option Schema → Components → Prop
    where
  | nil : Consulted t c [] none c
  | accepted {es e previous c₁ s c₂} : Consulted t c es previous c₁ →
    e.Accepts t previous c₁ s c₂ → Consulted t c (es ++ [e]) (some s) c₂
  | declined {es e previous c₁} : Consulted t c es previous c₁ → e.Declines t previous c₁ →
    Consulted t c (es ++ [e]) previous c₁

/-- The last extension that accepts a type decides its schema, from the one of the last before
it. -/
theorem Consulted.last {t : Ty} {c c' : Components} {es : List Extension} {r : Option Schema}
    (h : Consulted t c es r c') :
    (r = none ∧ c' = c ∧ ∀ e ∈ es, e.Declines t none c) ∨
      ∃ before e after previous c₁ s, es = before ++ e :: after ∧
        Consulted t c before previous c₁ ∧ e.Accepts t previous c₁ s c' ∧
        (∀ x ∈ after, x.Declines t (some s) c') ∧ r = some s := by
  induction h with
  | nil => exact .inl ⟨rfl, rfl, by simp⟩
  | @accepted es e previous c₁ s c₂ hes he _ =>
    exact .inr ⟨es, e, [], previous, c₁, s, rfl, hes, he, by simp, rfl⟩
  | @declined es x r c₁ hes hx ih =>
    rcases ih with ⟨rfl, rfl, hall⟩ | ⟨before, e, after, previous, c₂, s, rfl, hbefore, he, hafter,
      rfl⟩
    · refine .inl ⟨rfl, rfl, fun e he => ?_⟩
      rcases List.mem_append.mp he with he | he
      · exact hall e he
      · rw [List.mem_singleton.mp he]
        exact hx
    · refine .inr ⟨before, e, after ++ [x], previous, c₂, s, by simp, hbefore, he, ?_, rfl⟩
      intro y hy
      rcases List.mem_append.mp hy with hy | hy
      · exact hafter y hy
      · rw [List.mem_singleton.mp hy]
        exact hx

/-- What an extension gives refers to registered schemas, if what it is given does. -/
theorem Extension.Accepts.registered {e : Extension} (he : e.RefersToPrevious) {t : Ty}
    {previous : Option Schema} {c c' : Components} {s : Schema} (h : e.Accepts t previous c s c')
    (hprevious : ∀ p ∈ previous, Registered c p) : Registered c' s := by
  cases h with
  | @known name _ _ hhas => simpa [Registered, Schema.references] using hhas
  | answered _ _ hanswer =>
    intro name hname
    obtain ⟨p, hp, hname⟩ := he t previous s hanswer name hname
    exact hprevious p hp name hname
  | @added name s _ _ hfree _ =>
    have hself := has_add_self c name (.of s)
    simpa [Registered, schemaReference, Schema.references] using hself

theorem Consulted.registered {t : Ty} {c c' : Components} {es : List Extension}
    {r : Option Schema} (h : Consulted t c es r c') (hes : ∀ e ∈ es, e.RefersToPrevious) :
    ∀ s ∈ r, Registered c' s := by
  induction h with
  | nil => simp
  | accepted _ he ih =>
    rintro s ⟨⟩
    exact he.registered (hes _ (by simp)) (ih fun e hmem => hes e (by simp [hmem]))
  | declined _ _ ih => exact ih fun e hmem => hes e (by simp [hmem])

private theorem ends_bind (x : Generation α) (f : α → Generation β) (c : Components) :
    ends (x >>= f) c = ends (ExceptT.mk (ExceptT.bindCont f (ends x c).1)) (ends x c).2 := rfl

theorem ends_bind_ok {x : Generation α} {a : α} {c c' : Components}
    (h : ends x c = (.ok a, c')) (f : α → Generation β) : ends (x >>= f) c = ends (f a) c' := by
  rw [ends_bind, h]
  rfl

theorem ends_bind_error {x : Generation α} {error : SchemaError} {c c' : Components}
    (h : ends x c = (.error error, c')) (f : α → Generation β) :
    ends (x >>= f) c = (.error error, c') := by
  rw [ends_bind, h]
  rfl

private theorem endsNoted_bind (x : Noted α) (f : α → Noted β) (c : Components)
    (notes : List Question) : endsNoted (x >>= f) c notes =
      endsNoted (ExceptT.mk (ExceptT.bindCont f (endsNoted x c notes).1.1))
        (endsNoted x c notes).1.2 (endsNoted x c notes).2 := rfl

theorem endsNoted_bind_ok {x : Noted α} {a : α} {c c' : Components} {notes notes' : List Question}
    (h : endsNoted x c notes = ((.ok a, c'), notes')) (f : α → Noted β) :
    endsNoted (x >>= f) c notes = endsNoted (f a) c' notes' := by
  rw [endsNoted_bind, h]
  rfl

theorem endsNoted_bind_error {x : Noted α} {error : SchemaError} {c c' : Components}
    {notes notes' : List Question} (h : endsNoted x c notes = ((.error error, c'), notes'))
    (f : α → Noted β) : endsNoted (x >>= f) c notes = ((.error error, c'), notes') := by
  rw [endsNoted_bind, h]
  rfl

theorem ends_inside (x : Generation α) (c : Components) :
    ends (inside x) c =
      ((ends x c).1.mapError fun _ => SchemaError.onlyNullsInside, (ends x c).2) := by
  change (ExceptT.tryCatch x _).run.run c = _
  cases h : ends x c with
  | mk r c' =>
    have hrun : StateT.run (x : StateM Components (Except SchemaError α)) c = (r, c') := h
    cases r with
    | ok a =>
      rw [ExceptT.tryCatch, ExceptT.run_mk, StateT.run_bind, hrun]
      rfl
    | error e =>
      rw [ExceptT.tryCatch, ExceptT.run_mk, StateT.run_bind, hrun]
      rfl

theorem endsNoted_inside (x : Noted α) (c : Components) (notes : List Question) :
    endsNoted (inside x) c notes =
      (((endsNoted x c notes).1.1.mapError fun _ => SchemaError.onlyNullsInside,
        (endsNoted x c notes).1.2), (endsNoted x c notes).2) := by
  change ((ExceptT.tryCatch x _).run.run c).run notes = _
  cases h : endsNoted x c notes with
  | mk p notes' =>
    obtain ⟨r, c'⟩ := p
    have hrun : (StateT.run (x : StateT Components (StateM (List Question))
        (Except SchemaError α)) c).run notes = ((r, c'), notes') := h
    cases r with
    | ok a =>
      rw [ExceptT.tryCatch, ExceptT.run_mk, StateT.run_bind, StateT.run_bind, hrun]
      rfl
    | error e =>
      rw [ExceptT.tryCatch, ExceptT.run_mk, StateT.run_bind, StateT.run_bind, hrun]
      rfl

private theorem handled_append (es : List Extension) (e : Extension) (t : Ty) :
    (handled askPlainly (es ++ [e]) t =
      handled askPlainly es t >>= fun previous => applyExtension askPlainly t previous e) ∧
    handled askNoting (es ++ [e]) t =
      handled askNoting es t >>= fun previous => applyExtension askNoting t previous e := by
  constructor <;> simp [handled, List.foldlM_append]

/-- What all extensions do to a run. -/
theorem handled_steps {es all : List Extension} (hes : ∀ e ∈ es, e ∈ all) (t : Ty) (c : Components)
    (notes : List Question) :
    ∃ r c' qs, ends (handled askPlainly es t) c = (.ok r, c') ∧
      endsNoted (handled askNoting es t) c notes = ((.ok r, c'), notes ++ qs) ∧
      History all c qs c' ∧ Consulted t c es r c' := by
  -- From the end of the list, since an extension is given what all before it have made of the type.
  induction es using List.reverseRecOn with
  | nil => exact ⟨none, c, [], rfl, by rw [List.append_nil]; rfl, .nil, .nil⟩
  | append_singleton es e ih =>
    obtain ⟨previous, c₁, qs, hplain, hnoted, hhistory, hconsulted⟩ :=
      ih fun x hx => hes x (by simp [hx])
    obtain ⟨r, c₂, rs, hstep, hstepNoted, hstepHistory, hcases⟩ :=
      applyExtension_step (hes e (by simp)) t previous c₁ (notes ++ qs)
    obtain ⟨happ, happNoted⟩ := handled_append es e t
    refine ⟨r, c₂, qs ++ rs, ?_, ?_, hhistory.append hstepHistory, ?_⟩
    · rw [happ, ends_bind_ok hplain, hstep]
    · rw [happNoted, endsNoted_bind_ok hnoted, hstepNoted, List.append_assoc]
    · rcases hcases with ⟨s, rfl, haccepts⟩ | ⟨rfl, rfl, hdeclines⟩
      · exact .accepted hconsulted haccepts
      · exact .declined hconsulted hdeclines

end PhpTypes.OpenApi
