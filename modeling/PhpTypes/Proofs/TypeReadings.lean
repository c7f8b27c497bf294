import PhpTypes.Proofs.TypeGrammar
import PhpTypes.Proofs.TypeSpacing

/-!
# Readings of type expressions

The type of a text is built bottom up along the derivation of its tokens. A text that spells no
derivable list of tokens has no known type. White space at the ends of a text does not count, also
where it is no gap between tokens.
-/

namespace PhpTypes.Doc

/-- What a phrase of a symbol is built into. -/
@[reducible]
def Nonterminal.Meaning : Nonterminal → Type
  | .union | .intersection | .listed | .primary | .atom => Ty
  | .items => List Item
  | .item => Item
  | .key => Key
  | .others _ c => List c.Meaning

section

variable {m : Type → Type} [Monad m]

/-- Builds what a derivation stands for out of what its parts stand for, from left to right. -/
def Derivation.build (r : Reader m) : {c : Nonterminal} → Derivation c → m c.Meaning
  | _, .union first more => do
    let t ← first.build r
    let ts ← more.build r
    return inlined Ty.unionOf t ts
  | _, .intersection first more => do
    let t ← first.build r
    let ts ← more.build r
    return inlined Ty.intersection t ts
  | _, .primary t => t.build r
  | _, .listOf t => do return Ty.map none (← t.build r)
  | _, .atom t => t.build r
  | _, .nullable t => do return Ty.unionOf [← t.build r, .null]
  | _, .named name => namedType r name
  | _, .generic name first more => do
    let t ← first.build r
    let ts ← more.build r
    genericType r name (t :: ts)
  | _, .emptyShape name => pure (shapeType name [])
  | _, .shape name body => do return shapeType name (← body.build r)
  | _, .parens t => t.build r
  | _, .items first more _ => do
    let i ← first.build r
    let is ← more.build r
    return List.cons i is
  | _, .keyed key isOptional t => do
    let k ← key.build r
    return Item.mk (some k) (← t.build r) isOptional "" false
  | _, .value t => do return Item.of none (← t.build r)
  | _, .nameKey name => pure (Key.str name)
  | _, .intKey n => pure (Key.int n)
  | _, .stringKey text => pure (Key.str text)
  | _, .noOther => pure List.nil
  | _, .other next more => do
    let a ← next.build r
    let as ← more.build r
    return List.cons a as

/-- What a tree stands for. -/
def Nonterminal.meaning (r : Reader m) : (c : Nonterminal) → c.Tree → m c.Meaning
  | .union, t | .intersection, t | .listed, t | .primary, t | .atom, t => typeOf r t
  | .items, es => itemsOf r es
  | .item, e => itemOf r e
  | .key, k => pure k
  | .others _ c, as => as.mapM (c.meaning r)

variable [LawfulMonad m] (r : Reader m)

theorem typesOf_eq_mapM (ts : List TypeExpr) : typesOf r ts = ts.mapM (typeOf r) := by
  induction ts with
  | nil => rfl
  | cons t ts ih =>
    rw [List.mapM_cons, ← ih]
    rfl

private theorem itemsOf_eq_mapM (es : List ShapeEntry) : itemsOf r es = es.mapM (itemOf r) := by
  induction es with
  | nil => rfl
  | cons e es ih =>
    rw [List.mapM_cons, ← ih]
    rfl

private theorem typeOf_inlined_union (t : TypeExpr) (ts : List TypeExpr) :
    typeOf r (inlined .union t ts) = (do
      let u ← typeOf r t
      let us ← ts.mapM (typeOf r)
      return inlined Ty.unionOf u us) := by
  have hunion : ∀ us, typeOf r (.union us) = (do return Ty.unionOf (← typesOf r us)) := fun _ => rfl
  cases ts with
  | nil => simp [inlined]
  | cons v vs => simp [inlined, hunion, typesOf_eq_mapM]

private theorem typeOf_inlined_intersection (t : TypeExpr) (ts : List TypeExpr) :
    typeOf r (inlined .intersection t ts) = (do
      let u ← typeOf r t
      let us ← ts.mapM (typeOf r)
      return inlined Ty.intersection u us) := by
  have hintersection : ∀ us, typeOf r (.intersection us) = (do
      return .intersection (← typesOf r us)) := fun _ => rfl
  cases ts with
  | nil => simp [inlined]
  | cons v vs => simp [inlined, hintersection, typesOf_eq_mapM]

private theorem typeOf_generic (name : String) (t : TypeExpr) (ts : List TypeExpr) :
    typeOf r (.generic name (t :: ts)) = (do
      let u ← typeOf r t
      let us ← ts.mapM (typeOf r)
      genericType r name (u :: us)) := by
  have hgeneric : ∀ args, typeOf r (.generic name args) = (do
      genericType r name (← typesOf r args)) := fun _ => rfl
  simp [hgeneric, typesOf_eq_mapM]

private theorem typeOf_emptyShape (name : String) :
    typeOf r (.shape name []) = pure (shapeType name []) := by
  have hshape : typeOf r (.shape name []) = (do return shapeType name (← itemsOf r [])) := rfl
  have hitems : itemsOf r [] = pure [] := rfl
  rw [hshape, hitems, pure_bind]

private theorem itemsOf_cons (e : ShapeEntry) (es : List ShapeEntry) :
    itemsOf r (e :: es) = (do
      let i ← itemOf r e
      let is ← es.mapM (itemOf r)
      return i :: is) := by
  rw [itemsOf_eq_mapM, List.mapM_cons]

private theorem itemOf_keyed (key : Key) (isOptional : Bool) (t : TypeExpr) :
    itemOf r (.keyed key isOptional t) = (do
      let k ← pure key
      return Item.mk (some k) (← typeOf r t) isOptional "" false) := by
  rw [pure_bind]
  rfl

/-- What is built along a derivation is what its tree stands for. -/
theorem Derivation.build_eq {c : Nonterminal} (d : Derivation c) :
    d.build r = c.meaning r d.tree := by
  induction d with
  | union first more ihfirst ihmore =>
    rw [build, ihfirst, ihmore]
    exact (typeOf_inlined_union r first.tree more.tree).symm
  | intersection first more ihfirst ihmore =>
    rw [build, ihfirst, ihmore]
    exact (typeOf_inlined_intersection r first.tree more.tree).symm
  | primary t ih => exact ih
  | listOf t ih =>
    rw [build, ih]
    rfl
  | atom t ih => exact ih
  | nullable t ih =>
    rw [build, ih]
    rfl
  | named name => rfl
  | generic name first more ihfirst ihmore =>
    rw [build, ihfirst, ihmore]
    exact (typeOf_generic r name first.tree more.tree).symm
  | emptyShape name => exact (typeOf_emptyShape r name).symm
  | shape name body ih =>
    rw [build, ih]
    rfl
  | parens t ih => exact ih
  | items first more trailing ihfirst ihmore =>
    rw [build, ihfirst, ihmore]
    exact (itemsOf_cons r first.tree more.tree).symm
  | keyed key isOptional t ihkey iht =>
    rw [build, ihkey, iht]
    exact (itemOf_keyed r key.tree isOptional t.tree).symm
  | value t ih =>
    rw [build, ih]
    rfl
  | nameKey name => rfl
  | intKey n => rfl
  | stringKey text => rfl
  | noOther => rfl
  | @other separator part next more ihnext ihmore =>
    rw [build, ihnext, ihmore]
    exact (List.mapM_cons (f := part.meaning r) (a := next.tree) (l := more.tree)).symm

private theorem ofTokens?_tokens (d : Derivation .union) :
    TypeExpr.ofTokens? d.tokens = some d.tree :=
  ofTokens?_eq_some_iff.mpr ⟨d, rfl, rfl⟩

theorem parse?_of_spells {cs : List Char} {d : Derivation .union} (h : Spells cs d.tokens) :
    TypeExpr.parse? cs = some d.tree := by
  rw [TypeExpr.parse?, typeTokens_eq_some_iff.mpr h]
  exact ofTokens?_tokens d

theorem parse?_eq_some_iff {cs : List Char} {t : TypeExpr} :
    TypeExpr.parse? cs = some t ↔ ∃ d : Derivation .union, Spells cs d.tokens ∧ d.tree = t := by
  constructor
  · intro h
    obtain ⟨ts, hts, ht⟩ := Option.bind_eq_some_iff.mp h
    obtain ⟨d, rfl, htree⟩ := ofTokens?_eq_some_iff.mp ht
    exact ⟨d, typeTokens_eq_some_iff.mp hts, htree⟩
  · intro ⟨d, hd, htree⟩
    exact (parse?_of_spells hd).trans (congrArg some htree)

theorem parse?_nil : TypeExpr.parse? [] = none := rfl

omit [LawfulMonad m] in
/-- An empty text needs no case of its own: it is no expression. -/
theorem typeOfText_eq_match (text : String) :
    typeOfText r text = match TypeExpr.parse? (Text.trim text.toList) with
      | some t => typeOf r t
      | none => pure .unknown := by
  rw [typeOfText]
  cases Text.trim text.toList with
  | nil => rw [parse?_nil]; rfl
  | cons c cs => rfl

theorem typeOfText_of_spells {text : String} {d : Derivation .union}
    (h : Spells (Text.trim text.toList) d.tokens) : typeOfText r text = d.build r := by
  rw [typeOfText_eq_match, parse?_of_spells h, d.build_eq]
  rfl

/-- A text whose tokens have a derivation has the type that is built along it, and all derivations
of its tokens are one tree. Any other text has no known type. White space at the ends of a text does
not count, also where it is no gap between tokens. -/
theorem typeOfText_eq_build (text : String) :
    (∀ d : Derivation .union, Spells (Text.trim text.toList) d.tokens →
      typeOfText r text = d.build r ∧
        ∀ e : Derivation .union, e.tokens = d.tokens → e.tree = d.tree) ∧
    (∀ ts, Spells text.toList ts → Spells (Text.trim text.toList) ts) ∧
    ((¬∃ d : Derivation .union, Spells (Text.trim text.toList) d.tokens) →
      typeOfText r text = pure .unknown) := by
  have hunique : ∀ d e : Derivation .union, e.tokens = d.tokens → e.tree = d.tree := by
    intro d e htokens
    have htrees := ofTokens?_tokens e
    rw [htokens, ofTokens?_tokens d] at htrees
    exact (Option.some.inj htrees).symm
  have hnone : (¬∃ d : Derivation .union, Spells (Text.trim text.toList) d.tokens) →
      typeOfText r text = pure .unknown := by
    intro hnone
    rw [typeOfText_eq_match]
    cases hread : TypeExpr.parse? (Text.trim text.toList) with
    | none => rfl
    | some t =>
      obtain ⟨d, hd, -⟩ := parse?_eq_some_iff.mp hread
      exact absurd ⟨d, hd⟩ hnone
  exact ⟨fun d hd => ⟨typeOfText_of_spells r hd, hunique d⟩, fun ts h => h.trim, hnone⟩

end

/-- The derivation of `?int[]|array{a?: int,}`. -/
def nullableInts : Derivation .union :=
  .union (.intersection (.listOf (.primary (.nullable (.named "int")))) .noOther)
    (.other (.intersection (.primary (.atom (.shape "array" (.items
      (.keyed (.nameKey "a") true
        (.union (.intersection (.primary (.atom (.named "int"))) .noOther) .noOther))
      .noOther true)))) .noOther) .noOther)

theorem nullableInts_typeOfText :
    Spells (Text.trim " ?int[] | array\x7ba?: int,\x7d\n".toList) nullableInts.tokens ∧
      typeOfText (plainReader none) " ?int[] | array\x7ba?: int,\x7d\n" =
        nullableInts.build (plainReader none) ∧
      (¬∃ d : Derivation .union, Spells (Text.trim "int|".toList) d.tokens) ∧
      typeOfText (plainReader none) "int|" = pure .unknown := by
  have hspells : Spells (Text.trim " ?int[] | array\x7ba?: int,\x7d\n".toList)
      nullableInts.tokens := typeTokens_eq_some_iff.mp (by decide)
  have hnone : ¬∃ d : Derivation .union, Spells (Text.trim "int|".toList) d.tokens := by
    intro ⟨d, hd⟩
    have hparse : TypeExpr.parse? (Text.trim "int|".toList) = none := by rfl
    rw [parse?_of_spells hd] at hparse
    cases hparse
  have hread := (typeOfText_eq_build (plainReader none) _).1 nullableInts hspells
  exact ⟨hspells, hread.1, hnone, (typeOfText_eq_build (plainReader none) _).2.2 hnone⟩

/-- White space that is no gap between tokens still does not count at the ends of a text. -/
theorem plainType_padded :
    ¬((¬∃ d : Derivation .union, Spells "\u00a0int".toList d.tokens) →
      plainType "\u00a0int" = .unknown) := by
  have hspells : typeTokens "\u00a0int".toList = none := by decide
  have hread : plainType "\u00a0int" = .int none := by rfl
  intro h
  have hnone : ¬∃ d : Derivation .union, Spells "\u00a0int".toList d.tokens := by
    intro ⟨d, hd⟩
    rw [typeTokens_eq_some_iff.mpr hd] at hspells
    cases hspells
  rw [h hnone] at hread
  cases hread

end PhpTypes.Doc
