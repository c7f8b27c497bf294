import Mathlib.Data.List.Forall2
import PhpTypes.Proofs.Registration

/-!
# The names in the clauses of classes

A class names its parent, its interfaces and its traits. The names lose the separators in front
before they are read in the namespace of the class, so that a name written in full is read as any
other: it keeps its form only if no alias stands for its first part and the class is in no
namespace, or if the alias changes nothing.
-/

namespace PhpTypes

open Source

/-! Names that are read as themselves. -/

namespace Source

/-- The part of a name that an alias takes the place of: the first, or all if nothing follows. -/
def aliasedPart (name : String) : String :=
  if (otherParts name).isEmpty then name else firstPart name

theorem eq_append_otherParts {name : String} (h : (otherParts name).isEmpty = false) :
    name = firstPart name ++ "\\" ++ otherParts name := by
  have hparts : name.toList =
      name.toList.takeWhile (· != '\\') ++ name.toList.dropWhile (· != '\\') :=
    List.takeWhile_append_dropWhile.symm
  have hrest : ∃ cs, name.toList.dropWhile (· != '\\') = '\\' :: cs := by
    cases hdrop : name.toList.dropWhile (· != '\\') with
    | nil => simp [otherParts, hdrop] at h
    | cons c cs =>
      have hhead := List.head?_dropWhile_not (· != '\\') name.toList
      rw [hdrop] at hhead
      obtain rfl : c = '\\' := by simpa using hhead
      exact ⟨cs, rfl⟩
  obtain ⟨cs, hcs⟩ := hrest
  apply String.toList_injective
  rw [hparts]
  simp [firstPart, otherParts, hcs]

theorem plainName_ne_cons (name : String) (cs : List Char) :
    (plainName name).toList ≠ '\\' :: cs := by
  intro h
  have hhead := List.head?_dropWhile_not (· == '\\') name.toList
  rw [plainName, String.toList_ofList] at h
  simp [h] at hhead

namespace Context

/-- A name without separators in front is read as itself. -/
def Keeps (c : Context) (name : String) : Prop :=
  isRelativeName name ∨
    match c.alias? name with
    | some target => target = aliasedPart name
    | none => c.spaceName = ""

private theorem qualified_eq_self_iff (c : Context) (name : String) :
    c.qualified name = name ↔ c.spaceName = "" := by
  rw [qualified]
  split
  · rename_i hempty
    simpa using hempty
  · rename_i hne
    constructor
    · intro heq
      have hlength := congrArg String.length heq
      simp at hlength
    · intro hempty
      simp [hempty] at hne

private theorem qualify_plainName_eq_iff (c : Context) (name : String) :
    c.qualify (plainName name) = plainName name ↔ c.Keeps (plainName name) := by
  have hplain := plainName_ne_cons name
  generalize plainName name = plain at hplain ⊢
  rw [qualify, Keeps]
  split
  · rename_i cs hcs
    exact absurd hcs (hplain cs)
  by_cases hrelative : isRelativeName plain
  · simp [hrelative]
  simp only [hrelative, Bool.false_eq_true, if_false, false_or]
  cases c.alias? plain with
  | none => exact qualified_eq_self_iff c plain
  | some target =>
    by_cases hothers : (otherParts plain).isEmpty
    · simp [aliasedPart, hothers]
    · have hparts := eq_append_otherParts (Bool.eq_false_iff.mpr hothers)
      simp only [aliasedPart, hothers, Bool.false_eq_true, if_false]
      constructor
      · intro heq
        have hlists := congrArg String.toList (heq.trans hparts)
        apply String.toList_injective
        simpa using hlists
      · intro htarget
        rw [htarget, ← hparts]

end Context

end Source

/-! Classes as they are written and as they are declared. -/

/-- The clauses in which a class names other classes. -/
inductive Clause where
  | parent
  | interfaces
  | traits

def Source.ClassLike.names (d : ClassLike) : Clause → List String
  | .parent => d.parent.toList
  | .interfaces => d.interfaces
  | .traits => d.traits

/-- The classes of some declarations, each with the context that is in force there. -/
def classesIn (c : Context) : List Top → List (Context × ClassLike)
  | [] => []
  | t :: ts => (t.class?.map fun d => (c, d)).toList ++ classesIn (contextAfter c t) ts

private theorem names_placeClass (c : Context) (d : ClassLike) (clause : Clause) :
    (placeClass c d.plain).names clause =
      (d.names clause).map fun name => c.qualify (plainName name) := by
  cases clause with
  | parent => cases h : d.parent <;> simp [ClassLike.names, placeClass, ClassLike.plain, h]
  | interfaces => simp [ClassLike.names, placeClass, ClassLike.plain]
  | traits => simp [ClassLike.names, placeClass, ClassLike.plain]

private theorem classes_placeTops (c : Context) (ts : List Top) :
    (placeTops c (ts.map Top.plain)).filterMap Top.class? =
      (classesIn c ts).map fun p => placeClass p.1 p.2.plain := by
  induction ts generalizing c with
  | nil => rfl
  | cons t ts ih =>
    have hcontext : contextAfter c t.plain = contextAfter c t := by cases t <;> rfl
    rw [List.map_cons, placeTops, hcontext, List.filterMap_cons, ih, classesIn]
    cases t <;> rfl

theorem declaredClasses_of_written {source : String} {w : File} (h : written source = .ok w) :
    declaredClasses source =
      (classesIn .global w.tops).map fun p => placeClass p.1 p.2.plain := by
  have hparse : parse source = .ok w.plain := by rw [parse, h]; rfl
  rw [declaredClasses, hparse]
  exact classes_placeTops .global w.tops

/-- Every class that is written in a source is declared in the context of its place. Each name in
its clauses stands for what it stands for without the separators in front, so that it loses them and
nothing else just if its context keeps the rest. -/
theorem declaredClasses_names {source : String} {w : File} (h : written source = .ok w) :
    List.Forall₂ (fun p declared => declared.name = p.2.name ∧ declared.context = p.1 ∧
      ∀ clause, List.Forall₂ (fun name full => full = p.1.qualify (plainName name) ∧
        (full = plainName name ↔ p.1.Keeps (plainName name)))
        (p.2.names clause) (declared.names clause))
      (classesIn .global w.tops) (declaredClasses source) := by
  rw [declaredClasses_of_written h, List.forall₂_map_right_iff, List.forall₂_same]
  intro p _
  refine ⟨rfl, rfl, fun clause => ?_⟩
  rw [names_placeClass, List.forall₂_map_right_iff, List.forall₂_same]
  exact fun name _ => ⟨rfl, p.1.qualify_plainName_eq_iff name⟩

/-- A class in no namespace. -/
def globalSource : String := "<?php class A extends \\Base {}"

theorem globalSource_keeps_parent :
    ∃ w, written globalSource = .ok w ∧
      (classesIn .global w.tops).map (fun p => p.2.parent) = [some "\\Base"] ∧
      (declaredClasses globalSource).map ClassLike.parent = [some "Base"] := by
  have hwritten : ((written globalSource).toOption.map fun w => (classesIn .global w.tops).map
      fun p => (p.1.spaceName, p.1.uses.entries, p.2.parent)) = some [("", [], some "\\Base")] := by
    decide +kernel
  obtain ⟨w, hw, hclasses⟩ := Option.map_eq_some_iff.mp hwritten
  have hok : written globalSource = .ok w := by
    cases h : written globalSource with
    | error e => simp [h, Except.toOption] at hw
    | ok v => simpa [h, Except.toOption] using hw
  simp only [List.map_eq_cons_iff, List.map_eq_nil_iff, Prod.mk.injEq] at hclasses
  obtain ⟨p, _, hlist, ⟨hspace, huses, hparent⟩, rfl⟩ := hclasses
  have hall := declaredClasses_names hok
  rw [hlist, List.forall₂_cons_left_iff] at hall
  obtain ⟨d, ds, ⟨-, -, hnames⟩, hds, hdeclared⟩ := hall
  obtain rfl := List.forall₂_nil_left_iff.mp hds
  have hbase : plainName "\\Base" = "Base" := by decide
  have hkeeps : p.1.Keeps "Base" := by
    have halias : p.1.alias? "Base" = none := by
      rw [Context.alias?, Dict.get?, huses]
      rfl
    exact .inr (by simp [halias, hspace])
  have hone := hnames .parent
  simp only [ClassLike.names, hparent, Option.toList_some] at hone
  rw [List.forall₂_cons_left_iff] at hone
  obtain ⟨full, _, ⟨-, hfull⟩, hnil, hstored⟩ := hone
  rw [hbase] at hfull
  obtain rfl := List.forall₂_nil_left_iff.mp hnil
  have hstored : d.parent = some full := by simpa [Option.toList_eq_singleton_iff] using hstored
  refine ⟨w, hok, by simp [hlist, hparent], ?_⟩
  simp [hdeclared, hstored, hfull.mpr hkeeps]

/-- In a namespace the parent is another class than the one that is written in full. -/
theorem namespacedSource_changes_parent :
    let source := "<?php namespace App; class A extends \\Base {}"
    ((written source).toOption.map fun w => (classesIn .global w.tops).map fun p => p.2.parent) =
      some [some "\\Base"] ∧
    (declaredClasses source).map ClassLike.parent = [some "App\\Base"] := by
  decide +kernel

end PhpTypes
