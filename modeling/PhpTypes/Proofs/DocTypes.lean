import PhpTypes.Doc.Meaning
import PhpTypes.Native
import PhpTypes.Proofs.TypeParts

/-!
# The types of doc comments and hints

Reading a type expression or a hint asks a reader for the types of class names, in a monad that is
not fixed. Whatever can be promised of results and is kept by sequencing, is promised of the types
that are read, given that it is promised of the types of class names.
-/

namespace PhpTypes.Doc

open Ty

/-- What the results of computations satisfy, where the results of the first part of a computation
may be used for the second. -/
structure Guarantee (m : Type → Type) [Monad m] where
  sat : {α : Type} → m α → (α → Prop) → Prop
  pure : ∀ {α : Type} {a : α} {Q : α → Prop}, Q a → sat (Pure.pure a) Q
  bind : ∀ {α β : Type} {x : m α} {f : α → m β} {P : α → Prop} {Q : β → Prop},
    sat x P → (∀ a, P a → sat (f a) Q) → sat (x >>= f) Q

/-- Results of computations with a state, whatever the state is at the start. -/
def Guarantee.state (σ : Type) : Guarantee (StateM σ) where
  sat x Q := ∀ s, Q (x.run s).1
  pure h _ := h
  bind hx hf s := hf _ (hx s) _

/-- Plain values. -/
def Guarantee.value : Guarantee Id where
  sat x Q := Q x.run
  pure h := h
  bind hx hf := hf _ hx

section

variable {m : Type → Type} [Monad m] {G : Guarantee m} {P : Ty → Prop} {r : Reader m}

theorem Guarantee.namedType (hP : NodeProperty P) (hr : ∀ name, G.sat (r.resolve name) (Every P))
    (name : String) : G.sat (namedType r name) (Every P) := by
  unfold Doc.namedType
  simp only
  split
  · rename_i t ht
    exact G.pure (every_of_lookup hP (by simp [scalarTypes, isPlain, parts]) ht)
  · repeat' split
    · exact G.pure (every_arrayOf hP (by simp))
    · exact hr _
    · exact G.pure (every_unknown hP)
    · exact G.pure (every_functionOf hP (every_unknown hP) (by simp))
    · exact G.pure (every_leaf hP rfl rfl)
    · exact G.pure (every_unknown hP)
    · exact hr _

theorem Guarantee.genericType (hP : NodeProperty P)
    (hr : ∀ name, G.sat (r.resolve name) (Every P)) (name : String) {args : List Ty}
    (hargs : ∀ t ∈ args, Every P t) : G.sat (genericType r name args) (Every P) := by
  unfold Doc.genericType
  simp only
  repeat' split
  · rename_i value
    exact G.pure (every_mapOf hP (by simp) (hargs value (by simp)))
  · refine G.pure (every_mapOf hP (fun k hk => hargs k (List.mem_of_head? hk)) ?_)
    cases hlast : args.getLast? with
    | none => exact every_unknown hP
    | some v => exact hargs v (List.mem_of_getLast? hlast)
  · exact G.pure (every_leaf hP rfl rfl)
  · exact Guarantee.namedType hP hr name

private theorem every_shapeType (hP : NodeProperty P) (name : String) {items : List Item}
    (h : ∀ i ∈ items, Every P i.value) : Every P (shapeType name items) := by
  unfold shapeType
  split
  · exact every_leaf hP rfl rfl
  · exact every_arrayOf hP h

mutual

theorem Guarantee.typeOf (hP : NodeProperty P) (hr : ∀ name, G.sat (r.resolve name) (Every P)) :
    ∀ e : TypeExpr, G.sat (typeOf r e) (Every P)
  | .named name => by
    rw [Doc.typeOf]
    exact Guarantee.namedType hP hr name
  | .generic name args => by
    rw [Doc.typeOf]
    exact G.bind (Guarantee.typesOf hP hr args) fun _ h => Guarantee.genericType hP hr name h
  | .shape name entries => by
    rw [Doc.typeOf]
    exact G.bind (Guarantee.itemsOf hP hr entries) fun _ h => G.pure (every_shapeType hP name h)
  | .nullable e => by
    rw [Doc.typeOf]
    refine G.bind (Guarantee.typeOf hP hr e) fun t h => G.pure (every_unionOf hP ?_)
    simpa using ⟨h, every_leaf hP rfl rfl⟩
  | .listOf e => by
    rw [Doc.typeOf]
    exact G.bind (Guarantee.typeOf hP hr e) fun _ h => G.pure (every_mapOf hP (by simp) h)
  | .union es => by
    rw [Doc.typeOf]
    exact G.bind (Guarantee.typesOf hP hr es) fun _ h => G.pure (every_unionOf hP h)
  | .intersection es => by
    rw [Doc.typeOf]
    exact G.bind (Guarantee.typesOf hP hr es) fun _ h =>
      G.pure (every_intersection.mpr ⟨hP.plain rfl, h⟩)

theorem Guarantee.typesOf (hP : NodeProperty P) (hr : ∀ name, G.sat (r.resolve name) (Every P)) :
    ∀ es : List TypeExpr, G.sat (typesOf r es) fun ts => ∀ t ∈ ts, Every P t
  | [] => by
    rw [Doc.typesOf]
    exact G.pure (by simp)
  | e :: es => by
    rw [Doc.typesOf]
    exact G.bind (Guarantee.typeOf hP hr e) fun _ h => G.bind (Guarantee.typesOf hP hr es)
      fun _ hs => G.pure (List.forall_mem_cons.mpr ⟨h, hs⟩)

theorem Guarantee.itemsOf (hP : NodeProperty P) (hr : ∀ name, G.sat (r.resolve name) (Every P)) :
    ∀ es : List ShapeEntry, G.sat (itemsOf r es) fun is => ∀ i ∈ is, Every P i.value
  | [] => by
    rw [Doc.itemsOf]
    exact G.pure (by simp)
  | e :: es => by
    rw [Doc.itemsOf]
    exact G.bind (Guarantee.itemOf hP hr e) fun _ h => G.bind (Guarantee.itemsOf hP hr es)
      fun _ hs => G.pure (List.forall_mem_cons.mpr ⟨h, hs⟩)

theorem Guarantee.itemOf (hP : NodeProperty P) (hr : ∀ name, G.sat (r.resolve name) (Every P)) :
    ∀ e : ShapeEntry, G.sat (itemOf r e) fun i => Every P i.value
  | .keyed key isOptional e => by
    rw [Doc.itemOf]
    exact G.bind (Guarantee.typeOf hP hr e) fun _ h => G.pure h
  | .positional e => by
    rw [Doc.itemOf]
    exact G.bind (Guarantee.typeOf hP hr e) fun _ h => G.pure h

end

theorem Guarantee.typeOfText (hP : NodeProperty P)
    (hr : ∀ name, G.sat (r.resolve name) (Every P)) (text : String) :
    G.sat (typeOfText r text) (Every P) := by
  unfold Doc.typeOfText
  simp only
  split
  · exact G.pure (every_unknown hP)
  · split
    · rename_i e _
      exact Guarantee.typeOf hP hr e
    · exact G.pure (every_unknown hP)

theorem Guarantee.mapM [LawfulMonad m] {α β : Type} {f : α → m β} {Q : β → Prop}
    (hf : ∀ a, G.sat (f a) Q) (as : List α) : G.sat (as.mapM f) fun bs => ∀ b ∈ bs, Q b := by
  induction as with
  | nil => exact G.pure (by simp)
  | cons a as ih =>
    rw [List.mapM_cons]
    exact G.bind (hf a) fun _ hb => G.bind ih fun _ hbs =>
      G.pure (List.forall_mem_cons.mpr ⟨hb, hbs⟩)

theorem Guarantee.typeOfHint [LawfulMonad m] (hP : NodeProperty P)
    (hr : ∀ name, G.sat (r.resolve name) (Every P)) (hint : Option Source.TypeHint) :
    G.sat (typeOfHint r hint) (Every P) := by
  unfold Doc.typeOfHint
  cases hint with
  | none => exact G.pure (every_unknown hP)
  | some h =>
    refine G.bind (Guarantee.mapM (Guarantee.namedType hP hr) h.names) fun parts hparts => ?_
    cases h.kind with
    | nullable =>
      refine G.pure (every_unionOf hP ?_)
      rw [List.forall_mem_append]
      exact ⟨hparts, by simpa using every_leaf hP rfl rfl⟩
    | intersection => exact G.pure (every_intersection.mpr ⟨hP.plain rfl, hparts⟩)
    | union => exact G.pure (every_unionOf hP hparts)

end

/-- Nothing is known of the classes that the types of native functions name. -/
theorem every_plainType {P : Ty → Prop} (hP : NodeProperty P) (text : String) :
    Every P (plainType text) :=
  Guarantee.typeOfText (G := .value) (r := plainReader none) hP
    (fun _ => every_leaf hP rfl rfl) text

theorem every_native {P : Ty → Prop} (hP : NodeProperty P) {ds : List Natives.Declared}
    {name : String} {s : Signature} (h : (Natives.addAll .empty ds).get? name = some s) :
    Every P s.result := by
  rcases Dict.mem_values_setAll (Dict.mem_values_of_get? h) with h | h
  · cases h
  · obtain ⟨e, he, rfl⟩ := List.mem_map.mp h
    obtain ⟨d, -, rfl⟩ := List.mem_map.mp he
    exact every_plainType hP d.result

/-! Two readers of the same expression. -/

/-- Scalar types are the same for every reader. -/
theorem namedType_scalar {m : Type → Type} [Monad m] (r : Reader m) {name : String} {t : Ty}
    (h : scalarTypes.lookup (Source.nameKey name) = some t) : namedType r name = pure t := by
  simp [namedType, h]

/-- How computations of two monads are related, so that sequences of related parts are related. -/
structure Simulation (m n : Type → Type) [Monad m] [Monad n] where
  rel : {α : Type} → m α → n α → Prop
  pure : ∀ {α : Type} (a : α), rel (Pure.pure a) (Pure.pure a)
  bind : ∀ {α β : Type} {x : m α} {y : n α} {f : α → m β} {g : α → n β},
    rel x y → (∀ a, rel (f a) (g a)) → rel (x >>= f) (y >>= g)

/-- Computations of one monad that are the same. -/
def Simulation.same (m : Type → Type) [Monad m] : Simulation m m where
  rel x y := x = y
  pure _ := rfl
  bind hx hf := by rw [hx, funext hf]

mutual

/-- All names in an expression. -/
def TypeExpr.names : TypeExpr → List String
  | .named name => [name]
  | .generic name args => name :: namesOf args
  | .shape _ entries => entryNames entries
  | .nullable t => t.names
  | .listOf t => t.names
  | .union ts => namesOf ts
  | .intersection ts => namesOf ts

def namesOf : List TypeExpr → List String
  | [] => []
  | t :: ts => t.names ++ namesOf ts

def entryNames : List ShapeEntry → List String
  | [] => []
  | e :: es => e.names ++ entryNames es

def ShapeEntry.names : ShapeEntry → List String
  | .keyed _ _ t => t.names
  | .positional t => t.names

end

/-- The names in a text that is an expression. -/
def namesInText (text : String) : List String :=
  ((TypeExpr.parse? (Text.trim text.toList)).map TypeExpr.names).getD []

namespace Simulation

variable {m n : Type → Type} [Monad m] [Monad n] {S : Simulation m n} {r : Reader m} {q : Reader n}

theorem namedType (hself : r.selfClass = q.selfClass)
    (hresolve : ∀ name, S.rel (r.resolve name) (q.resolve name)) (name : String) :
    S.rel (Doc.namedType r name) (Doc.namedType q name) := by
  unfold Doc.namedType
  simp only
  split
  · exact S.pure _
  · rw [hself]
    repeat' split
    · exact S.pure _
    · exact hresolve _
    · exact S.pure _
    · exact S.pure _
    · exact S.pure _
    · exact S.pure _
    · exact hresolve _

theorem genericType {name : String} (h : S.rel (Doc.namedType r name) (Doc.namedType q name))
    (args : List Ty) : S.rel (Doc.genericType r name args) (Doc.genericType q name args) := by
  unfold Doc.genericType
  simp only
  repeat' split
  · exact S.pure _
  · exact S.pure _
  · exact S.pure _
  · exact h

mutual

/-- Expressions are read alike if the names in them are. -/
theorem typeOf : ∀ e : TypeExpr,
    (∀ name ∈ e.names, S.rel (Doc.namedType r name) (Doc.namedType q name)) →
    S.rel (Doc.typeOf r e) (Doc.typeOf q e)
  | .named name, h => by
    rw [Doc.typeOf, Doc.typeOf]
    exact h name (by simp [TypeExpr.names])
  | .generic name args, h => by
    rw [TypeExpr.names, List.forall_mem_cons] at h
    rw [Doc.typeOf, Doc.typeOf]
    exact S.bind (typesOf args h.2) (genericType h.1)
  | .shape name entries, h => by
    rw [TypeExpr.names] at h
    rw [Doc.typeOf, Doc.typeOf]
    exact S.bind (itemsOf entries h) fun _ => S.pure _
  | .nullable e, h => by
    rw [TypeExpr.names] at h
    rw [Doc.typeOf, Doc.typeOf]
    exact S.bind (typeOf e h) fun _ => S.pure _
  | .listOf e, h => by
    rw [TypeExpr.names] at h
    rw [Doc.typeOf, Doc.typeOf]
    exact S.bind (typeOf e h) fun _ => S.pure _
  | .union es, h => by
    rw [TypeExpr.names] at h
    rw [Doc.typeOf, Doc.typeOf]
    exact S.bind (typesOf es h) fun _ => S.pure _
  | .intersection es, h => by
    rw [TypeExpr.names] at h
    rw [Doc.typeOf, Doc.typeOf]
    exact S.bind (typesOf es h) fun _ => S.pure _

theorem typesOf : ∀ es : List TypeExpr,
    (∀ name ∈ namesOf es, S.rel (Doc.namedType r name) (Doc.namedType q name)) →
    S.rel (Doc.typesOf r es) (Doc.typesOf q es)
  | [], _ => by
    rw [Doc.typesOf, Doc.typesOf]
    exact S.pure _
  | e :: es, h => by
    rw [namesOf, List.forall_mem_append] at h
    rw [Doc.typesOf, Doc.typesOf]
    exact S.bind (typeOf e h.1) fun _ => S.bind (typesOf es h.2) fun _ => S.pure _

theorem itemsOf : ∀ es : List ShapeEntry,
    (∀ name ∈ entryNames es, S.rel (Doc.namedType r name) (Doc.namedType q name)) →
    S.rel (Doc.itemsOf r es) (Doc.itemsOf q es)
  | [], _ => by
    rw [Doc.itemsOf, Doc.itemsOf]
    exact S.pure _
  | e :: es, h => by
    rw [entryNames, List.forall_mem_append] at h
    rw [Doc.itemsOf, Doc.itemsOf]
    exact S.bind (itemOf e h.1) fun _ => S.bind (itemsOf es h.2) fun _ => S.pure _

theorem itemOf : ∀ e : ShapeEntry,
    (∀ name ∈ e.names, S.rel (Doc.namedType r name) (Doc.namedType q name)) →
    S.rel (Doc.itemOf r e) (Doc.itemOf q e)
  | .keyed key isOptional e, h => by
    rw [ShapeEntry.names] at h
    rw [Doc.itemOf, Doc.itemOf]
    exact S.bind (typeOf e h) fun _ => S.pure _
  | .positional e, h => by
    rw [ShapeEntry.names] at h
    rw [Doc.itemOf, Doc.itemOf]
    exact S.bind (typeOf e h) fun _ => S.pure _

end

theorem typeOfText {text : String}
    (h : ∀ name ∈ namesInText text, S.rel (Doc.namedType r name) (Doc.namedType q name)) :
    S.rel (Doc.typeOfText r text) (Doc.typeOfText q text) := by
  unfold Doc.typeOfText
  simp only
  split
  · exact S.pure _
  · split
    · rename_i e he
      exact typeOf e fun name hname => h name (by simpa [namesInText, he] using hname)
    · exact S.pure _

theorem mapM [LawfulMonad m] [LawfulMonad n] {α β : Type} {f : α → m β} {g : α → n β}
    {as : List α} (h : ∀ a ∈ as, S.rel (f a) (g a)) : S.rel (as.mapM f) (as.mapM g) := by
  induction as with
  | nil => exact S.pure _
  | cons a as ih =>
    rw [List.forall_mem_cons] at h
    rw [List.mapM_cons, List.mapM_cons]
    exact S.bind h.1 fun _ => S.bind (ih h.2) fun _ => S.pure _

theorem typeOfHint [LawfulMonad m] [LawfulMonad n] {hint : Option Source.TypeHint}
    (h : ∀ t ∈ hint, ∀ name ∈ t.names, S.rel (Doc.namedType r name) (Doc.namedType q name)) :
    S.rel (Doc.typeOfHint r hint) (Doc.typeOfHint q hint) := by
  unfold Doc.typeOfHint
  cases hint with
  | none => exact S.pure _
  | some t =>
    apply S.bind (mapM (h t rfl))
    intro parts
    cases t.kind with
    | nullable => exact S.pure _
    | intersection => exact S.pure _
    | union => exact S.pure _

end Simulation

end PhpTypes.Doc
