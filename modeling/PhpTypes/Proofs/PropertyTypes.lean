import PhpTypes.Proofs.Transparency

/-!
# The types of inherited properties

The type of a property comes from the first class in the lineage that declares it, by a declaration
or by a tag of its doc comment. The declaration is read in the context of the class that is asked,
not of the class that it stands in. So both classes give the property one type if the names in the
declaration stand for the same in both contexts, and may give it two types otherwise.
-/

namespace PhpTypes.Inference

open Source

/-! Analyses with one result. -/

/-- An analysis gives a value in every memory with records from the index, and keeps them so. -/
def Gives (p : Program) {α : Type} (x : Analysis α) (a : α) : Prop :=
  ∀ m : Memory, m.RecordsFrom p → (x.run m).result = .ok a ∧ (x.run m).memory.RecordsFrom p

namespace Gives

variable {p : Program} {α β : Type}

theorem pure (a : α) : Gives p (Pure.pure a) a := fun _ hm => ⟨rfl, hm⟩

theorem bind {x : Analysis α} {f : α → Analysis β} {a : α} {b : β} (hx : Gives p x a)
    (hf : Gives p (f a) b) : Gives p (x >>= f) b := by
  intro m hm
  obtain ⟨hresult, hrecords⟩ := hx m hm
  rw [Analysis.run_bind_ok hresult]
  exact hf _ hrecords

theorem classDecl {name : String} {c : ClassLike} (hc : p.index.resolve name = some c) :
    Gives p (classDecl p name) (some c) := by
  intro m hm
  rw [classDecl_run_keyed hc hm]
  exact ⟨rfl, hm.meet (Index.resolve_mem hc)⟩

theorem readDoc {comment : Option String} {b : Doc.Block} (h : Doc.Block.parse comment = .ok b) :
    Gives p (readDoc comment) b := by
  rw [Inference.readDoc, h]
  exact pure b

end Gives

/-! What class names stand for. -/

/-- The type of the instances of a class given by its full name. -/
def instancesOf (p : Program) (name : String) : Ty :=
  match p.index.resolve name with
  | some c => instanceType c
  | none => .instanceOf name none

/-- The type that a class name stands for in a context. -/
def meaningIn (p : Program) (c : Context) (name : String) : Ty :=
  if (p.index.resolve (c.qualify name)).isNone && (p.index.resolve name).isSome then
    instancesOf p name
  else instancesOf p (c.qualify name)

/-- How types are read in a context, with nothing to be remembered. -/
def meaningReader (p : Program) (c : Context) (selfClass : String) : Doc.Reader Id :=
  ⟨some selfClass, meaningIn p c⟩

private theorem objectType_gives (p : Program) (name : String) :
    Gives p (objectType p name) (instancesOf p name) := by
  rw [objectType, instancesOf]
  cases hc : p.index.resolve name with
  | some c => exact (Gives.classDecl hc).bind (.pure _)
  | none =>
    have hnone : Gives p (classDecl p name) none := by
      intro m hm
      rw [classDecl_run_none hc]
      exact ⟨rfl, hm⟩
    exact hnone.bind (.pure _)

private theorem resolveName_gives (p : Program) (c : Context) (name : String) :
    Gives p (resolveName p c name) (meaningIn p c name) := by
  rw [resolveName, meaningIn]
  split
  · exact objectType_gives p name
  · exact objectType_gives p (c.qualify name)

/-- Analyses that give a value. -/
def giving (p : Program) : Doc.Simulation Analysis Id where
  rel x y := Gives p x y.run
  pure := Gives.pure
  bind hx hf := hx.bind (hf _)

private theorem namedType_gives (p : Program) (c : Context) (selfClass name : String) :
    (giving p).rel (Doc.namedType (readerIn p c (some selfClass)) name)
      (Doc.namedType (meaningReader p c selfClass) name) := by
  apply Doc.Simulation.namedType
  · rfl
  · exact fun n => resolveName_gives p c n

/-! Declarations of properties. -/

/-- What a property is declared with: a type in a doc comment, or a hint. -/
inductive Declaration where
  | text (typeExpr : String)
  | hinted (hint : Option TypeHint)

namespace Declaration

def type {m : Type → Type} [Monad m] (r : Doc.Reader m) : Declaration → m Ty
  | .text typeExpr => Doc.typeOfText r typeExpr
  | .hinted hint => Doc.typeOfHint r hint

/-- The names that a declaration mentions. -/
def names : Declaration → List String
  | .text typeExpr => Doc.namesInText typeExpr
  | .hinted hint => (hint.map TypeHint.names).getD []

/-- The declaration of a class, read in some context. -/
def typeIn (p : Program) (c : Context) (owner : ClassLike) (decl : Declaration) : Ty :=
  (decl.type (meaningReader p c owner.fullName)).run

theorem type_related {m n : Type → Type} [Monad m] [Monad n] [LawfulMonad m] [LawfulMonad n]
    {S : Doc.Simulation m n} {r : Doc.Reader m} {q : Doc.Reader n} {decl : Declaration}
    (h : ∀ name ∈ decl.names, S.rel (Doc.namedType r name) (Doc.namedType q name)) :
    S.rel (decl.type r) (decl.type q) := by
  cases decl with
  | text typeExpr => exact Doc.Simulation.typeOfText h
  | hinted hint =>
    apply Doc.Simulation.typeOfHint
    rintro t ⟨⟩
    exact h

theorem type_gives (p : Program) (c : Context) (owner : ClassLike) (decl : Declaration) :
    Gives p (decl.type (readerIn p c (some owner.fullName))) (decl.typeIn p c owner) :=
  type_related (S := giving p) fun name _ => namedType_gives p c owner.fullName name

end Declaration

/-- What a property is declared with, given its doc comment. -/
def declaredBy (block : Doc.Block) (property : Property) : Declaration :=
  match block.varTag? (some property.name) with
  | some tag => if tag.typeExpr.isEmpty then .hinted property.hint else .text tag.typeExpr
  | none => .hinted property.hint

/-- What a tag of the doc comment of a class declares a property with. -/
def taggedBy (block : Doc.Block) (name : String) : Option Declaration :=
  (block.properties.find? fun t => t.variableName == some name).map fun t => .text t.typeExpr

/-- How a class itself declares a property. A doc comment that cannot be read leaves that open. -/
def declarationIn (owner : ClassLike) (name : String) :
    Except Doc.MalformedTag (Option Declaration) :=
  match owner.properties.find? fun d => d.name == name with
  | some property => (Doc.Block.parse property.doc).map fun b => some (declaredBy b property)
  | none => (Doc.Block.parse owner.doc).map fun b => taggedBy b name

private theorem declaredProperty_gives {p : Program} {c : Context} {owner : ClassLike}
    {property : Property} {block : Doc.Block} (h : Doc.Block.parse property.doc = .ok block) :
    Gives p (declaredProperty (readerIn p c (some owner.fullName)) property)
      ((declaredBy block property).typeIn p c owner) := by
  rw [declaredProperty, declaredBy]
  apply (Gives.readDoc h).bind
  cases block.varTag? (some property.name) with
  | none => exact Declaration.type_gives p c owner (.hinted property.hint)
  | some tag =>
    by_cases hempty : tag.typeExpr.isEmpty
    · simp only [hempty, if_true]
      exact Declaration.type_gives p c owner (.hinted property.hint)
    · simp only [hempty, Bool.false_eq_true, if_false]
      exact Declaration.type_gives p c owner (.text tag.typeExpr)

private theorem ownProperty?_gives {p : Program} {c : Context} {owner : ClassLike} {name : String}
    {decl : Option Declaration} (h : declarationIn owner name = .ok decl) :
    Gives p (ownProperty? p c owner name) (decl.map (Declaration.typeIn p c owner)) := by
  rw [declarationIn] at h
  rw [ownProperty?]
  cases hfind : owner.properties.find? fun d => d.name == name with
  | some property =>
    simp only [hfind] at h ⊢
    cases hblock : Doc.Block.parse property.doc with
    | error t => simp [hblock, Except.map] at h
    | ok block =>
      simp only [hblock, Except.map, Except.ok.injEq] at h
      rw [← h]
      exact (declaredProperty_gives hblock).bind (.pure _)
  | none =>
    simp only [hfind] at h ⊢
    cases hblock : Doc.Block.parse owner.doc with
    | error t => simp [hblock, Except.map] at h
    | ok block =>
      simp only [hblock, Except.map, Except.ok.injEq] at h
      rw [← h, taggedBy]
      apply (Gives.readDoc hblock).bind
      cases block.properties.find? fun t => t.variableName == some name with
      | none => exact .pure none
      | some tag => exact (Declaration.type_gives p c owner (.text tag.typeExpr)).bind (.pure _)

private theorem propertyAlong_gives {p : Program} {c : Context} {name : String} {owner : ClassLike}
    {before after : List ClassLike} {decl : Declaration}
    (hbefore : ∀ d ∈ before, declarationIn d name = .ok none)
    (howner : declarationIn owner name = .ok (some decl)) :
    Gives p (propertyAlong p c name (before ++ owner :: after)) (decl.typeIn p c owner) := by
  induction before with
  | nil => exact (ownProperty?_gives howner).bind (.pure _)
  | cons d before ih =>
    rw [List.forall_mem_cons] at hbefore
    exact (ownProperty?_gives hbefore.1).bind (ih hbefore.2)

/-- The first class in the lineage that declares a property has the type of the property, read in
the context of the class that is asked. -/
theorem propertyType_gives {p : Program} {className name : String} {c owner : ClassLike}
    {before after : List ClassLike} {decl : Declaration} (hc : p.index.resolve className = some c)
    (hlineage : lineage p.index c = before ++ owner :: after)
    (hbefore : ∀ d ∈ before, declarationIn d name = .ok none)
    (howner : declarationIn owner name = .ok (some decl)) :
    Gives p (propertyType p className name) (decl.typeIn p c.context owner) := by
  apply (Gives.classDecl hc).bind
  simp only [hlineage]
  exact propertyAlong_gives hbefore howner

private theorem propertyType_own_gives {p : Program} {className name : String} {c : ClassLike}
    {decl : Declaration} (hc : p.index.resolve className = some c)
    (h : declarationIn c name = .ok (some decl)) :
    Gives p (propertyType p className name) (decl.typeIn p c.context c) := by
  have hhead : ∃ rest, lineage p.index c = [] ++ c :: rest := lineage_head p.index c
  obtain ⟨rest, hrest⟩ := hhead
  exact propertyType_gives hc hrest (by simp) h

/-- A property that a class inherits has, in both classes, the type of its declaration in the
declaring class, but each class reads it in its own context. Both types are the same if the names
that the declaration mentions stand for the same in both contexts. -/
theorem propertyType_inherited {p : Program} {className ownerName name : String}
    {c owner : ClassLike} {before after : List ClassLike} {decl : Declaration} {m n : Memory}
    (hm : m.RecordsFrom p) (hn : n.RecordsFrom p) (hc : p.index.resolve className = some c)
    (hownerName : p.index.resolve ownerName = some owner)
    (hlineage : lineage p.index c = before ++ owner :: after)
    (hbefore : ∀ d ∈ before, declarationIn d name = .ok none)
    (howner : declarationIn owner name = .ok (some decl)) :
    ((propertyType p className name).run m).result = .ok (decl.typeIn p c.context owner) ∧
    ((propertyType p ownerName name).run n).result = .ok (decl.typeIn p owner.context owner) ∧
    ((∀ word ∈ decl.names, Doc.namedType (meaningReader p c.context owner.fullName) word =
        Doc.namedType (meaningReader p owner.context owner.fullName) word) →
      ((propertyType p className name).run m).result =
        ((propertyType p ownerName name).run n).result) := by
  have hasked := (propertyType_gives hc hlineage hbefore howner m hm).1
  have hdeclared := (propertyType_own_gives hownerName howner n hn).1
  refine ⟨hasked, hdeclared, fun hwords => ?_⟩
  rw [hasked, hdeclared, Declaration.typeIn, Declaration.typeIn,
    Declaration.type_related (S := .same Id) hwords]

/-! Two classes `Owner` in two namespaces. -/

/-- A property that is hinted by one name. -/
def hintedProperty (name hint : String) : Property :=
  ⟨⟨1, 1⟩, none, name, some ⟨⟨1, 1⟩, .union, [hint]⟩, none, ["public"]⟩

def libOwner : ClassLike :=
  { ClassLike.bare ⟨1, 1⟩ none .ordinary "Owner" with context := ⟨"Lib", .empty⟩ }

def libModel : ClassLike :=
  { ClassLike.bare ⟨2, 1⟩ none .ordinary "Model" with
    properties := [hintedProperty "owner" "Owner", hintedProperty "size" "int"]
    context := ⟨"Lib", .empty⟩ }

def appOwner : ClassLike :=
  { ClassLike.bare ⟨1, 1⟩ none .ordinary "Owner" with context := ⟨"App", .empty⟩ }

/-- It is declared after `use Lib\Model`. -/
def appPost : ClassLike :=
  { ClassLike.bare ⟨2, 1⟩ none .ordinary "Post" with
    parent := some "Lib\\Model"
    context := ⟨"App", Dict.empty.set "model" "Lib\\Model"⟩ }

def ownersProgram : Program :=
  .declaring ([libOwner, libModel, appOwner, appPost].foldl Index.addClass .empty) []

private theorem ownersProgram_lineage :
    lineage ownersProgram.index appPost = [appPost] ++ [libModel] := by
  have hmem : appPost ∈ ownersProgram.index.classes.values := List.mem_of_getElem? (i := 3) rfl
  rw [lineage_eq_firsts (n := 6) hmem (by decide)]
  rfl

private theorem ownersProgram_resolves :
    ownersProgram.index.resolve "App\\Post" = some appPost ∧
      ownersProgram.index.resolve "Lib\\Model" = some libModel :=
  ⟨rfl, rfl⟩

/-- A number is a number in both namespaces. -/
theorem ownersProgram_size :
    declarationIn libModel "size" = .ok (some (.hinted (some ⟨⟨1, 1⟩, .union, ["int"]⟩))) ∧
    ((propertyType ownersProgram "App\\Post" "size").run .empty).result =
      ((propertyType ownersProgram "Lib\\Model" "size").run .empty).result := by
  have hempty : Memory.empty.RecordsFrom ownersProgram := Memory.recordsFrom_reset _ .empty
  have hbefore : ∀ d ∈ [appPost], declarationIn d "size" = .ok none := by
    rw [List.forall_mem_singleton]
    rfl
  have hsize : declarationIn libModel "size" =
      .ok (some (.hinted (some ⟨⟨1, 1⟩, .union, ["int"]⟩))) := rfl
  have hinherited := propertyType_inherited hempty hempty ownersProgram_resolves.1
    ownersProgram_resolves.2 ownersProgram_lineage hbefore hsize
  have hint : ∀ word ∈ ["int"],
      Doc.namedType (meaningReader ownersProgram appPost.context libModel.fullName) word =
        Doc.namedType (meaningReader ownersProgram libModel.context libModel.fullName) word := by
    have hscalar : Doc.scalarTypes.lookup (nameKey "int") = some (.int none) := rfl
    rw [List.forall_mem_singleton, Doc.namedType_scalar _ hscalar, Doc.namedType_scalar _ hscalar]
  exact ⟨hsize, hinherited.2.2 hint⟩

/-- The owner that a class inherits is another one than where it is declared. -/
theorem ownersProgram_owner :
    lineage ownersProgram.index appPost = [appPost] ++ [libModel] ∧
    declarationIn appPost "owner" = .ok none ∧
    declarationIn libModel "owner" = .ok (some (.hinted (some ⟨⟨1, 1⟩, .union, ["Owner"]⟩))) ∧
    ((propertyType ownersProgram "App\\Post" "owner").run .empty).result =
      .ok (instanceType appOwner) ∧
    ((propertyType ownersProgram "Lib\\Model" "owner").run .empty).result =
      .ok (instanceType libOwner) := by
  have hempty : Memory.empty.RecordsFrom ownersProgram := Memory.recordsFrom_reset _ .empty
  have hpost : declarationIn appPost "owner" = .ok none := rfl
  have howner : declarationIn libModel "owner" =
      .ok (some (.hinted (some ⟨⟨1, 1⟩, .union, ["Owner"]⟩))) := rfl
  have hasked := (propertyType_gives ownersProgram_resolves.1 ownersProgram_lineage
    (by simpa using hpost) howner .empty hempty).1
  have hdeclared := (propertyType_own_gives ownersProgram_resolves.2 howner .empty hempty).1
  exact ⟨ownersProgram_lineage, hpost, howner, hasked, hdeclared⟩

end PhpTypes.Inference
