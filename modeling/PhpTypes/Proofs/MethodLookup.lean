import PhpTypes.Proofs.Lineage

/-!
# Where methods are found

A method is found in the nearest class that declares it, of all that the class gets members from.
Where the clauses of classes name what they should, each distance has traits first, then the
ancestor along the parents, then interfaces. So an ancestor with a method is hidden by an interface
that is nearer, though not by one at its own distance.
-/

namespace PhpTypes.Inference

open Source

/-- The class itself declares a method. -/
def Declares (c : ClassLike) (name : String) : Prop := (findIn c name).isSome

instance (c : ClassLike) (name : String) : Decidable (Declares c name) :=
  inferInstanceAs (Decidable (_ = true))

/-! The nearest declaration. -/

private theorem levels_eq_append_cons {index : Index} {n : Nat} {queue ds es : List ClassLike}
    {d : ClassLike} (h : levels index n queue = ds ++ d :: es) :
    ∃ j before after, level index j queue = before ++ d :: after ∧
      ds = levels index j queue ++ before := by
  induction n generalizing queue ds with
  | zero => simp [levels] at h
  | succ n ih =>
    rw [levels, List.append_eq_append_iff] at h
    rcases h with ⟨fs, hds, hrest⟩ | ⟨fs, hqueue, hrest⟩
    · obtain ⟨j, before, after, hlevel, hfs⟩ := ih hrest
      refine ⟨j + 1, before, after, hlevel, ?_⟩
      rw [hds, hfs, levels, List.append_assoc]
    · cases fs with
      | nil =>
        have hnext : levels index n (queue.flatMap (relatives index)) = [] ++ d :: es :=
          hrest.symm
        obtain ⟨j, before, after, hlevel, hfs⟩ := ih hnext
        refine ⟨j + 1, before, after, hlevel, ?_⟩
        rw [levels, List.append_assoc, ← hfs, List.append_nil, hqueue, List.append_nil]
      | cons f fs =>
        obtain ⟨rfl, -⟩ := List.cons.inj hrest
        exact ⟨0, ds, fs, hqueue, rfl⟩

/-- A method that some class at a distance declares is found, no farther away, in the first class of
the nearest level that declares it. -/
theorem exists_findMethod {index : Index} {c d : ClassLike} {name : String} {k : Nat}
    (hc : c ∈ index.classes.values) (hd : d ∈ level index k [c]) (hdecl : Declares d name) :
    ∃ owner m j before after, findMethod index c name = some (owner, m) ∧ Declares owner name ∧
      j ≤ k ∧ level index j [c] = before ++ owner :: after ∧
      (∀ e ∈ before, ¬ Declares e name) ∧
      ∀ l < j, ∀ e ∈ level index l [c], ¬ Declares e name := by
  have hn : index.classes.values.length + 1 < k + (index.classes.values.length + 2) := by omega
  have hfind := findSome?_lineage hc hn fun owner => (findIn owner name).map fun m => (owner, m)
  have hmem : d ∈ levels index (k + (index.classes.values.length + 2)) [c] :=
    mem_levels_iff.mpr ⟨k, by omega, hd⟩
  have hsome : (findMethod index c name).isSome := by
    rw [findMethod, hfind, List.findSome?_isSome_iff]
    exact ⟨d, hmem, by simpa [Declares] using hdecl⟩
  obtain ⟨⟨owner, m⟩, hfound⟩ := Option.isSome_iff_exists.mp hsome
  have hfirst := hfound
  rw [findMethod, hfind, List.findSome?_eq_some_iff] at hfirst
  obtain ⟨ds, e, es, hsplit, he, hnone⟩ := hfirst
  obtain ⟨m', hm', heq⟩ := Option.map_eq_some_iff.mp he
  obtain ⟨rfl, rfl⟩ := Prod.mk.inj heq
  have hbefore : ∀ f ∈ ds, ¬ Declares f name := by
    intro f hf
    simpa [Declares] using hnone f hf
  obtain ⟨j, before, after, hlevel, rfl⟩ := levels_eq_append_cons hsplit
  have hlevels : ∀ l < j, ∀ f ∈ level index l [c], ¬ Declares f name :=
    fun l hl f hf => hbefore f (List.mem_append_left _ (mem_levels_iff.mpr ⟨l, hl, hf⟩))
  have hj : j ≤ k := by
    by_cases hlt : k < j
    · exact absurd hdecl (hlevels k hlt d hd)
    · omega
  exact ⟨e, m', j, before, after, hfound, by simp [Declares, hm'], hj, hlevel,
    fun f hf => hbefore f (List.mem_append_right _ hf), hlevels⟩

/-! Ancestors and kinds. -/

/-- The class that is so many steps away along the parents. -/
def ancestor (index : Index) : Nat → ClassLike → Option ClassLike
  | 0, c => some c
  | k + 1, c => (ancestor index k c).bind (parentOf index)

/-- The declared classes of some names. -/
def named (index : Index) (names : List String) : List ClassLike := names.filterMap index.resolve

/-- The clauses of a class name what they should: traits are used, but not by interfaces, classes
extend classes, and interfaces belong to classes and interfaces. -/
structure WellKinded (index : Index) (c : ClassLike) : Prop where
  traits : ∀ d ∈ named index c.traits, c.kind ≠ .interface ∧ d.kind = .trait
  parent : ∀ d ∈ parentOf index c, c.kind = .ordinary ∧ d.kind = .ordinary
  interfaces : ∀ d ∈ named index c.interfaces, c.kind ≠ .trait ∧ d.kind = .interface

theorem relatives_eq (index : Index) (c : ClassLike) :
    relatives index c =
      named index c.traits ++ ((parentOf index c).toList ++ named index c.interfaces) := by
  have hparent : c.parent.toList.filterMap index.resolve = (parentOf index c).toList := by
    cases hp : c.parent with
    | none => simp [parentOf, hp]
    | some name => cases hr : index.resolve name <;> simp [parentOf, hp, hr]
  rw [relatives, List.filterMap_append, List.filterMap_append, hparent, List.append_assoc]
  rfl

namespace WellKinded

variable {index : Index} {c : ClassLike}

theorem relatives_trait (h : WellKinded index c) (hc : c.kind = .trait) :
    ∀ d ∈ relatives index c, d.kind = .trait := by
  intro d hd
  rw [relatives_eq, List.mem_append, List.mem_append, Option.mem_toList] at hd
  rcases hd with hd | hd | hd
  · exact (h.traits d hd).2
  · have hkind := (h.parent d hd).1
    simp [hc] at hkind
  · exact absurd hc (h.interfaces d hd).1

theorem relatives_interface (h : WellKinded index c) (hc : c.kind = .interface) :
    ∀ d ∈ relatives index c, d.kind = .interface := by
  intro d hd
  rw [relatives_eq, List.mem_append, List.mem_append, Option.mem_toList] at hd
  rcases hd with hd | hd | hd
  · exact absurd hc (h.traits d hd).1
  · have hkind := (h.parent d hd).1
    simp [hc] at hkind
  · exact (h.interfaces d hd).2

end WellKinded

/-- Each level has traits, then the ancestor, then interfaces. -/
theorem level_eq_ancestor {index : Index} {c : ClassLike} (hc : c.kind = .ordinary)
    (hkinds : ∀ k, ∀ d ∈ level index k [c], WellKinded index d) (k : Nat) :
    ∃ traits interfaces,
      level index k [c] = traits ++ ((ancestor index k c).toList ++ interfaces) ∧
      (∀ t ∈ traits, t.kind = .trait) ∧ (∀ i ∈ interfaces, i.kind = .interface) ∧
      ∀ d ∈ ancestor index k c, d.kind = .ordinary := by
  induction k with
  | zero => exact ⟨[], [], rfl, by simp, by simp, by simpa [ancestor] using hc⟩
  | succ k ih =>
    obtain ⟨traits, interfaces, hlevel, htraits, hinterfaces, hordinary⟩ := ih
    have hmem := hkinds k
    rw [hlevel] at hmem
    have htraits' : ∀ d ∈ traits.flatMap (relatives index), d.kind = .trait := by
      intro d hd
      obtain ⟨t, ht, htd⟩ := List.mem_flatMap.mp hd
      exact (hmem t (by simp [ht])).relatives_trait (htraits t ht) d htd
    have hinterfaces' : ∀ d ∈ interfaces.flatMap (relatives index), d.kind = .interface := by
      intro d hd
      obtain ⟨i, hi, hid⟩ := List.mem_flatMap.mp hd
      exact (hmem i (by simp [hi])).relatives_interface (hinterfaces i hi) d hid
    rw [level_succ, hlevel, List.flatMap_append, List.flatMap_append]
    cases ha : ancestor index k c with
    | none =>
      refine ⟨_, _, ?_, htraits', hinterfaces', ?_⟩
      · simp [ancestor, ha]
      · simp [ancestor, ha]
    | some a =>
      have hwell : WellKinded index a := hmem a (by simp [ha])
      refine ⟨traits.flatMap (relatives index) ++ named index a.traits,
        named index a.interfaces ++ interfaces.flatMap (relatives index), ?_, ?_, ?_, ?_⟩
      · simp [ancestor, ha, relatives_eq]
      · exact List.forall_mem_append.mpr ⟨htraits', fun t ht => (hwell.traits t ht).2⟩
      · exact List.forall_mem_append.mpr ⟨fun i hi => (hwell.interfaces i hi).2, hinterfaces'⟩
      · intro d hd
        simp only [ancestor, ha, Option.bind_some] at hd
        exact (hwell.parent d hd).2

section

variable {index : Index} {c : ClassLike} (hc : c.kind = .ordinary)
  (hkinds : ∀ k, ∀ d ∈ level index k [c], WellKinded index d)
include hc hkinds

private theorem ancestor_mem_level {k : Nat} {d : ClassLike} (h : ancestor index k c = some d) :
    d ∈ level index k [c] ∧ d.kind = .ordinary := by
  obtain ⟨_, _, hlevel, -, -, hordinary⟩ := level_eq_ancestor hc hkinds k
  exact ⟨by simp [hlevel, h], hordinary d h⟩

private theorem ancestor_of_ordinary {k : Nat} {d : ClassLike} (hd : d ∈ level index k [c])
    (hkind : d.kind = .ordinary) : ancestor index k c = some d := by
  obtain ⟨_, _, hlevel, htraits, hinterfaces, -⟩ := level_eq_ancestor hc hkinds k
  rw [hlevel, List.mem_append, List.mem_append, Option.mem_toList] at hd
  rcases hd with hd | hd | hd
  · simp [htraits d hd] at hkind
  · exact hd
  · simp [hinterfaces d hd] at hkind

/-- What stands after an interface in a level are interfaces. -/
theorem interfaces_last {k : Nat} {i d : ClassLike} {before after : List ClassLike}
    (hsplit : level index k [c] = before ++ i :: after) (hi : i.kind = .interface)
    (hd : d ∈ level index k [c]) (hkind : d.kind ≠ .interface) : d ∈ before := by
  obtain ⟨traits, interfaces, hlevel, htraits, hinterfaces, hordinary⟩ :=
    level_eq_ancestor hc hkinds k
  have hfront : ∀ e ∈ traits ++ (ancestor index k c).toList, e.kind ≠ .interface := by
    intro e he
    rcases List.mem_append.mp he with he | he
    · simp [htraits e he]
    · simp [hordinary e (Option.mem_toList.mp he)]
  rw [hlevel, ← List.append_assoc] at hsplit hd
  have hdfront : d ∈ traits ++ (ancestor index k c).toList := by
    rcases List.mem_append.mp hd with hd | hd
    · exact hd
    · exact absurd (hinterfaces d hd) hkind
  rcases List.append_eq_append_iff.mp hsplit with ⟨es, rfl, -⟩ | ⟨es, heq, hrest⟩
  · exact List.mem_append_left _ hdfront
  · cases es with
    | nil => rwa [heq, List.append_nil] at hdfront
    | cons e es =>
      obtain ⟨rfl, -⟩ := List.cons.inj hrest
      exact absurd hi (hfront i (by simp [heq]))

end

/-- A method that a class or an ancestor of it declares is found, and it is found in an interface
just if an interface that declares it is nearer than every ancestor and every trait that does. -/
theorem findMethod_inherited {index : Index} {c d : ClassLike} {name : String} {k : Nat}
    (hc : c ∈ index.classes.values) (hkind : c.kind = .ordinary)
    (hkinds : ∀ e ∈ lineage index c, WellKinded index e)
    (hd : ancestor index k c = some d) (hdecl : Declares d name) :
    ∃ owner m, findMethod index c name = some (owner, m) ∧
      (owner.kind = .interface ↔ ∃ j, ∃ i ∈ level index j [c], i.kind = .interface ∧
        Declares i name ∧
        (∀ l e, ancestor index l c = some e → Declares e name → j < l) ∧
        ∀ l, ∀ t ∈ level index l [c], t.kind = .trait → Declares t name → j < l) := by
  have hwell : ∀ l, ∀ e ∈ level index l [c], WellKinded index e :=
    fun l e he => hkinds e ((mem_lineage_iff hc).mpr ⟨l, he⟩)
  obtain ⟨owner, m, j, before, after, hfound, howner, -, hsplit, hbefore, hnearer⟩ :=
    exists_findMethod hc (ancestor_mem_level hkind hwell hd).1 hdecl
  have hmem : owner ∈ level index j [c] := by simp [hsplit]
  refine ⟨owner, m, hfound, ?_, ?_⟩
  · intro hinterface
    have hfar : ∀ l, ∀ e ∈ level index l [c], e.kind ≠ .interface → Declares e name → j < l := by
      intro l e he hne hdeclares
      by_cases hlt : l < j
      · exact absurd hdeclares (hnearer l hlt e he)
      · by_cases heq : l = j
        · -- In its level the interface comes after all that is none.
          subst heq
          exact absurd hdeclares (hbefore e (interfaces_last hkind hwell hsplit hinterface he hne))
        · omega
    refine ⟨j, owner, hmem, hinterface, howner, ?_, ?_⟩
    · intro l e he
      obtain ⟨hel, hordinary⟩ := ancestor_mem_level hkind hwell he
      exact hfar l e hel (by simp [hordinary])
    · intro l t ht htrait
      exact hfar l t ht (by simp [htrait])
  · rintro ⟨j', i, hi, -, hideclares, hchain, htraits⟩
    have hle : j ≤ j' := by
      by_cases hlt : j' < j
      · exact absurd hideclares (hnearer j' hlt i hi)
      · omega
    cases hown : owner.kind with
    | interface => rfl
    | ordinary =>
      have hlt := hchain j owner (ancestor_of_ordinary hkind hwell hmem hown) howner
      omega
    | trait =>
      have hlt := htraits j owner hmem hown howner
      omega

/-! A method of a grandparent, and an interface that declares it too. -/

/-- No class leads back to itself. -/
def Acyclic (index : Index) : Prop :=
  ∀ c ∈ index.classes.values, ∀ k, c ∉ level index (k + 1) [c]

private theorem acyclic_of_rank {index : Index} (rank : ClassLike → Nat)
    (h : ∀ c ∈ index.classes.values, ∀ d ∈ relatives index c, rank d < rank c) :
    Acyclic index := by
  have hlevel : ∀ c ∈ index.classes.values, ∀ k, ∀ d ∈ level index (k + 1) [c],
      rank d < rank c := by
    intro c hc k
    induction k with
    | zero => simpa [level] using h c hc
    | succ k ih =>
      intro d hd
      rw [level_succ, List.mem_flatMap] at hd
      obtain ⟨e, he, hde⟩ := hd
      have hmem : e ∈ index.classes.values := level_subset (by simpa using hc) e he
      exact Nat.lt_trans (h e hmem d hde) (ih e he)
  intro c hc k hk
  exact Nat.lt_irrefl _ (hlevel c hc k c hk)

/-- An abstract method, without parameters. -/
def signature (name : String) : Method := ⟨⟨1, 1⟩, none, name, [], none, none, []⟩

def area : ClassLike :=
  { ClassLike.bare ⟨1, 1⟩ none .interface "Area" with methods := [signature "size"] }

def shape : ClassLike :=
  let body : Body := ⟨⟨2, 1⟩, [.returns ⟨2, 1⟩ none (some (.int ⟨2, 1⟩ 1))]⟩
  { ClassLike.bare ⟨2, 1⟩ none .ordinary "Shape" with
    methods := [{ signature "size" with body := some body }] }

/-- Its parent and its interface are at one distance. -/
def polygon : ClassLike :=
  { ClassLike.bare ⟨3, 1⟩ none .ordinary "Polygon" with
    parent := some "Shape", interfaces := ["Area"] }

/-- Its interface is nearer than the ancestor that it has its method from. -/
def square : ClassLike :=
  { ClassLike.bare ⟨4, 1⟩ none .ordinary "Square" with
    parent := some "Polygon", interfaces := ["Area"] }

def shapesIndex : Index := [area, shape, polygon, square].foldl Index.addClass .empty

private theorem shapesIndex_wellKinded :
    ∀ c ∈ shapesIndex.classes.values, WellKinded shapesIndex c := by
  have htraits : ∀ c ∈ shapesIndex.classes.values, ∀ d ∈ named shapesIndex c.traits,
      c.kind ≠ .interface ∧ d.kind = .trait := by decide +kernel
  have hparent : ∀ c ∈ shapesIndex.classes.values, ∀ d ∈ parentOf shapesIndex c,
      c.kind = .ordinary ∧ d.kind = .ordinary := by decide +kernel
  have hinterfaces : ∀ c ∈ shapesIndex.classes.values, ∀ d ∈ named shapesIndex c.interfaces,
      c.kind ≠ .trait ∧ d.kind = .interface := by decide +kernel
  exact fun c hc => ⟨htraits c hc, hparent c hc, hinterfaces c hc⟩

/-- The parent comes before the interface, which is not nearer. -/
theorem polygon_inherits_size :
    polygon ∈ shapesIndex.classes.values ∧ ancestor shapesIndex 1 polygon = some shape ∧
    Declares shape "size" ∧ area ∈ level shapesIndex 1 [polygon] ∧ Declares area "size" ∧
    ∃ owner m, findMethod shapesIndex polygon "size" = some (owner, m) ∧
      owner.kind ≠ .interface := by
  have hmem : polygon ∈ shapesIndex.classes.values := List.mem_of_getElem? (i := 2) rfl
  have hlevel : level shapesIndex 1 [polygon] = [shape, area] := rfl
  have hshape : ancestor shapesIndex 1 polygon = some shape := rfl
  have hsize : Declares shape "size" := by decide
  obtain ⟨owner, m, hfound, hiff⟩ := findMethod_inherited hmem rfl
    (fun e he => shapesIndex_wellKinded e (lineage_subset hmem he)) hshape hsize
  refine ⟨hmem, hshape, hsize, by simp [hlevel], by decide, owner, m, hfound, ?_⟩
  intro howner
  obtain ⟨j, i, hi, hinterface, -, hchain, -⟩ := hiff.mp howner
  have hzero : j < 1 := hchain 1 shape hshape hsize
  obtain rfl : j = 0 := by omega
  obtain rfl : i = polygon := by simpa [level] using hi
  cases hinterface

/-- An interface hides what is inherited from a grandparent: nothing is cyclic, all ancestors are
classes and one of them declares the method, but the method found is that of the interface. -/
theorem square_finds_interface :
    Acyclic shapesIndex ∧ square ∈ shapesIndex.classes.values ∧
    (∀ k, ∀ d ∈ ancestor shapesIndex k square, d.kind = .ordinary) ∧
    ancestor shapesIndex 2 square = some shape ∧ Declares shape "size" ∧
    findMethod shapesIndex square "size" = some (area, signature "size") ∧
    area.kind = .interface := by
  have hmem : square ∈ shapesIndex.classes.values := List.mem_of_getElem? (i := 3) rfl
  have hwell : ∀ k, ∀ d ∈ level shapesIndex k [square], WellKinded shapesIndex d :=
    fun k d hd => shapesIndex_wellKinded d (level_subset (by simpa using hmem) d hd)
  have hacyclic : Acyclic shapesIndex := by
    apply acyclic_of_rank fun c => ["Area", "Shape", "Polygon", "Square"].idxOf c.name
    decide +kernel
  have hfound : findMethod shapesIndex square "size" = some (area, signature "size") := by
    rw [findMethod, findSome?_lineage (n := 6) hmem (by decide)]
    rfl
  exact ⟨hacyclic, hmem, fun k d hd => (ancestor_mem_level rfl hwell hd).2, rfl, by decide, hfound,
    rfl⟩

end PhpTypes.Inference
