import PhpTypes.Proofs.BoundVariables
import PhpTypes.Proofs.EntryNumbers

/-!
# Array literals

The elements of an array literal are evaluated one after the other, each to an entry. If all keys
are literals, then the type of the array is the shape of these entries. What is read from it by an
integer is the entry with that key or at that position. This need not be the entry with that number:
after an entry with a key, numbers run ahead of positions.
-/

namespace PhpTypes

private theorem Item.withKey_none {i : Item} (h : i.key = none) : i.withKey none = i := by
  obtain ⟨key, value, isOptional, description, docHinted⟩ := i
  cases h
  rfl

private theorem Ty.eq_ofKey_of_literalKey? {t : Ty} {k : Key} (h : t.literalKey? = some k) :
    t = ofKey k := by
  unfold literalKey? at h
  split at h <;> cases h <;> rfl

namespace Inference

open Source Ty

variable {s : Site}

/-! Entries. -/

/-- The key of an element, if it is known from the text: that of a literal, or none at all. -/
def elementKey? : Element → Option (Option Key)
  | .plain _ _ _ => some none
  | .keyed _ _ key _ => ((literalType? key).bind literalKey?).map some
  | .spread _ _ _ => none

/-- The entry of an element without its key: its value, unless its doc comment gives a type. -/
def elementEntry (s : Site) : Element → Eval Item
  | .plain _ doc value => do documentedItem s doc (← settle (eval s value))
  | .keyed _ doc _ value => do documentedItem s doc (← settle (eval s value))
  | .spread _ doc value => do documentedItem s doc (← settle (eval s value))

/-- The elements are evaluated one after the other, and these are their entries. -/
inductive Evaluated (s : Site) :
    List Element → Frame → Memory → List Item → Frame → Memory → Prop where
  | nil {f m} : Evaluated s [] f m [] f m
  | cons {e rest key item items f f' g m m' n} : elementKey? e = some key →
    ending (elementEntry s e) f m = (.ok (item, f'), m') → Evaluated s rest f' m' items g n →
    Evaluated s (e :: rest) f m (item.withKey key :: items) g n

/-- A doc comment gives no key, and makes no entry optional. -/
theorem documentedItem_result {doc : Option String} {t : Ty} {m : Memory} {item : Item}
    (h : ((documentedItem s doc t).run m).result = .ok item) :
    item.key = none ∧ item.isOptional = false := by
  cases doc with
  | none =>
    cases h
    exact ⟨rfl, rfl⟩
  | some text =>
    cases hblock : Doc.Block.parse (some text) with
    | error tag =>
      have hread : readDoc (some text) = throw (.malformedTag tag) := by rw [readDoc, hblock]
      rw [documentedItem, hread] at h
      cases h
    | ok block =>
      have hread : readDoc (some text) = pure block := by rw [readDoc, hblock]
      rw [documentedItem, hread, pure_bind] at h
      cases htag : block.varTag? none with
      | none =>
        rw [htag] at h
        cases h
        exact ⟨rfl, rfl⟩
      | some tag =>
        simp only [htag] at h
        by_cases hempty : tag.typeExpr.isEmpty = true
        · rw [if_pos hempty] at h
          cases h
          exact ⟨rfl, rfl⟩
        · rw [if_neg hempty] at h
          cases hr : ((s.typeOfText tag.typeExpr).run m).result with
          | error e =>
            rw [Analysis.run_bind_error hr] at h
            cases h
          | ok u =>
            rw [Analysis.run_bind_ok hr] at h
            cases h
            exact ⟨rfl, rfl⟩

theorem elementEntry_result {e : Element} {f g : Frame} {m n : Memory} {item : Item}
    (h : ending (elementEntry s e) f m = (.ok (item, g), n)) :
    item.key = none ∧ item.isOptional = false := by
  have hvalue : ∃ doc value, elementEntry s e = (do
      documentedItem s doc (← settle (eval s value))) := by
    cases e <;> exact ⟨_, _, rfl⟩
  obtain ⟨doc, value, heq⟩ := hvalue
  rw [heq] at h
  rcases hend : ending (settle (eval s value)) f m with ⟨⟨e⟩ | ⟨t, f'⟩, m'⟩
  · rw [ending_bind_error hend] at h
    cases h
  · rw [ending_bind_ok hend, ending_lift] at h
    cases hr : ((documentedItem s doc t).run m').result with
    | error e =>
      rw [hr] at h
      cases h
    | ok i =>
      rw [hr] at h
      cases h
      exact documentedItem_result hr

/-- A literal key is evaluated without any effect. -/
theorem gather_cons {e : Element} {key : Option Key} (he : elementKey? e = some key)
    (g : Gathered) (rest : List Element) :
    ∃ next : Item → Gathered,
      gather s g (e :: rest) = (do gather s (next (← elementEntry s e)) rest) ∧
      ∀ item, item.key = none → (next item).degraded = g.degraded ∧
        (next item).items = withItem g.items (item.withKey key) := by
  cases e with
  | plain pos doc value =>
    cases he
    refine ⟨g.addPlain, ?_, fun item hitem => ?_⟩
    · simp only [gather, elementEntry, bind_assoc]
    · rw [Item.withKey_none hitem]
      exact ⟨rfl, rfl⟩
  | keyed pos doc keyExpr value =>
    obtain ⟨k, hk, rfl⟩ := Option.map_eq_some_iff.mp he
    obtain ⟨t, ht, hkey⟩ := Option.bind_eq_some_iff.mp hk
    refine ⟨fun item => g.addKeyed item t, ?_, fun item _ => ?_⟩
    · simp only [gather, elementEntry, bind_assoc, eval_literal ht, settle_pure, pure_bind]
    · rw [eq_ofKey_of_literalKey? hkey]
      cases k <;> exact ⟨rfl, rfl⟩
  | spread pos doc value => cases he

private theorem evaluated_of_gather {elements : List Element}
    (hkeys : ∀ e ∈ elements, (elementKey? e).isSome = true) {g g' : Gathered} {f f' : Frame}
    {m m' : Memory} (h : ending (gather s g elements) f m = (.ok (g', f'), m')) :
    ∃ items, Evaluated s elements f m items f' m' ∧ g'.degraded = g.degraded ∧
      g'.items = items.foldl withItem g.items := by
  induction elements generalizing g f m with
  | nil =>
    cases h
    exact ⟨[], .nil, rfl, rfl⟩
  | cons e rest ih =>
    rw [List.forall_mem_cons] at hkeys
    obtain ⟨key, hkey⟩ := Option.isSome_iff_exists.mp hkeys.1
    obtain ⟨next, hgather, hnext⟩ := gather_cons (s := s) hkey g rest
    rw [hgather] at h
    rcases hentry : ending (elementEntry s e) f m with ⟨⟨stop⟩ | ⟨item, f₁⟩, m₁⟩
    · rw [ending_bind_error hentry] at h
      cases h
    · rw [ending_bind_ok hentry] at h
      obtain ⟨items, hitems, hdegraded, hshape⟩ := ih hkeys.2 h
      have hitem := hnext item (elementEntry_result hentry).1
      refine ⟨_, .cons hkey hentry hitems, hdegraded.trans hitem.1, ?_⟩
      rw [hshape, hitem.2, List.foldl_cons]

theorem Evaluated.gather {elements : List Element} {f f' : Frame} {m m' : Memory}
    {items : List Item} (h : Evaluated s elements f m items f' m') (g : Gathered) :
    ∃ g', ending (gather s g elements) f m = (.ok (g', f'), m') ∧ g'.degraded = g.degraded ∧
      g'.items = items.foldl withItem g.items := by
  induction h generalizing g with
  | nil => exact ⟨g, rfl, rfl, rfl⟩
  | @cons e rest key item items f f₁ f' m m₁ m' hkey hentry _ ih =>
    obtain ⟨next, hgather, hnext⟩ := gather_cons (s := s) hkey g rest
    obtain ⟨g', hrest, hdegraded, hshape⟩ := ih (next item)
    have hitem := hnext item (elementEntry_result hentry).1
    refine ⟨g', ?_, hdegraded.trans hitem.1, ?_⟩
    · rw [hgather, ending_bind_ok hentry, hrest]
    · rw [hshape, hitem.2, List.foldl_cons]

theorem exists_evaluated {elements : List Element}
    (hkeys : ∀ e ∈ elements, (elementKey? e).isSome = true) {pos : Pos} {f g : Frame}
    {m n : Memory} {t : Ty}
    (h : ending (settle (eval s (.array pos elements))) f m = (.ok (t, g), n)) :
    ∃ entries, Evaluated s elements f m entries g n := by
  rw [eval, settle_lift_bind] at h
  rcases hgather : ending (Inference.gather s .empty elements) f m with ⟨⟨e⟩ | ⟨gathered, f'⟩, m'⟩
  · rw [ending_bind_error hgather] at h
    cases h
  · rw [ending_bind_ok hgather] at h
    cases h
    obtain ⟨entries, hentries, -⟩ := evaluated_of_gather hkeys hgather
    exact ⟨entries, hentries⟩

/-- The type of an array literal is the shape of its entries. -/
theorem Evaluated.eval {elements : List Element} {f g : Frame} {m n : Memory} {entries : List Item}
    (h : Evaluated s elements f m entries g n) (pos : Pos) :
    ending (settle (eval s (.array pos elements))) f m =
      (.ok (.array (shapeOf entries), g), n) := by
  obtain ⟨gathered, hgather, hdegraded, hitems⟩ := h.gather .empty
  have htype : gathered.type = .array (shapeOf entries) := by
    rw [Gathered.type, hdegraded, hitems]
    rfl
  rw [Inference.eval, settle_lift_bind, ending_bind_ok hgather, htype]
  rfl

/-! Reads. -/

open OpenApi (lastNumbered positionNumbers Aligned lastNumbered_shapeOf readShape_of_aligned)

/-- An array literal whose keys are literals has for its type the shape of its entries. What is read
from it by an integer is the last entry with that key, or else the entry at that position. If
numbers and positions are aligned, this is the last entry with that number, and nothing is known if
there is none. -/
theorem array_literal_read (s : Site) {elements : List Element}
    (hkeys : ∀ e ∈ elements, (elementKey? e).isSome = true) (pos : Pos) (f : Frame) (m : Memory) :
    (∀ t g n, ending (settle (eval s (.array pos elements))) f m = (.ok (t, g), n) →
      ∃ entries, Evaluated s elements f m entries g n) ∧
    ∀ entries g n, Evaluated s elements f m entries g n →
      ending (settle (eval s (.array pos elements))) f m =
        (.ok (.array (shapeOf entries), g), n) ∧
      (∀ key, lastNumbered (shapeOf entries) key = lastNumbered entries key) ∧
      ∀ k : Int,
        readIndex (.array (shapeOf entries)) (.int (some k)) = (((lastKeyed entries (.int k)).or
          (positional? entries k)).map Item.value).getD .unknown ∧
        (Aligned entries → readIndex (.array (shapeOf entries)) (.int (some k)) =
          ((lastNumbered entries (.int k)).map Item.value).getD .unknown) := by
  constructor
  · intro t g n hend
    exact exists_evaluated hkeys hend
  · intro entries g n hentries
    refine ⟨hentries.eval pos, lastNumbered_shapeOf entries, fun k => ?_⟩
    exact ⟨readShape_shapeOf entries k, fun haligned => readShape_of_aligned haligned k⟩

/-- `['x', 5 => 'y', 0 => 'z']` -/
def growingElements : List Element :=
  [.plain ⟨1, 1⟩ none (.string ⟨1, 1⟩ "x" false),
    .keyed ⟨1, 1⟩ none (.int ⟨1, 1⟩ 5) (.string ⟨1, 1⟩ "y" false),
    .keyed ⟨1, 1⟩ none (.int ⟨1, 1⟩ 0) (.string ⟨1, 1⟩ "z" false)]

def growingEntries : List Item :=
  [.of none (.string (some "x")), .of (some (.int 5)) (.string (some "y")),
    .of (some (.int 0)) (.string (some "z"))]

theorem growingElements_read :
    (∀ e ∈ growingElements, (elementKey? e).isSome = true) ∧
    Evaluated emptySite growingElements ⟨.empty, []⟩ .empty growingEntries ⟨.empty, []⟩ .empty ∧
    Aligned growingEntries ∧
    readIndex (.array (shapeOf growingEntries)) (.int (some 0)) = .string (some "z") ∧
    readIndex (.array (shapeOf growingEntries)) (.int (some 6)) = .unknown := by
  have hkeys : ∀ e ∈ growingElements, (elementKey? e).isSome = true := by
    simp only [growingElements, List.forall_mem_cons]
    exact ⟨rfl, rfl, rfl, List.forall_mem_nil _⟩
  have hentries : Evaluated emptySite growingElements ⟨.empty, []⟩ .empty growingEntries
      ⟨.empty, []⟩ .empty := by
    change Evaluated emptySite growingElements ⟨.empty, []⟩ .empty
      [(Item.of none (.string (some "x"))).withKey none,
        (Item.of none (.string (some "y"))).withKey (some (.int 5)),
        (Item.of none (.string (some "z"))).withKey (some (.int 0))] ⟨.empty, []⟩ .empty
    exact .cons rfl rfl (.cons rfl rfl (.cons rfl rfl .nil))
  have haligned : Aligned growingEntries := by
    intro p key hp
    have hnumbers : positionNumbers 0 growingEntries = [.int 0] := rfl
    rw [hnumbers, List.getElem?_singleton] at hp
    split at hp
    · rename_i hzero
      cases hp
      exact .inl (by rw [hzero]; rfl)
    · cases hp
  have hliteral := array_literal_read emptySite hkeys ⟨1, 1⟩ ⟨.empty, []⟩ .empty
  have hread := (hliteral.2 _ _ _ hentries).2.2
  exact ⟨hkeys, hentries, haligned, (hread 0).2 haligned, (hread 6).2 haligned⟩

/-- `[5 => 'x', 'y']` -/
def skippingElements : List Element :=
  [.keyed ⟨1, 1⟩ none (.int ⟨1, 1⟩ 5) (.string ⟨1, 1⟩ "x" false),
    .plain ⟨1, 1⟩ none (.string ⟨1, 1⟩ "y" false)]

def skippingEntries : List Item :=
  [.of (some (.int 5)) (.string (some "x")), .of none (.string (some "y"))]

/-- The second element has the number 6, but is found at 0. -/
theorem skippingElements_misread :
    Evaluated emptySite skippingElements ⟨.empty, []⟩ .empty skippingEntries ⟨.empty, []⟩ .empty ∧
    lastNumbered skippingEntries (.int 6) = some (.of none (.string (some "y"))) ∧
    readIndex (.array (shapeOf skippingEntries)) (.int (some 6)) = .unknown ∧
    lastNumbered skippingEntries (.int 0) = none ∧
    readIndex (.array (shapeOf skippingEntries)) (.int (some 0)) = .string (some "y") := by
  have hentries : Evaluated emptySite skippingElements ⟨.empty, []⟩ .empty
      [(Item.of none (.string (some "x"))).withKey (some (.int 5)),
        (Item.of none (.string (some "y"))).withKey none] ⟨.empty, []⟩ .empty :=
    .cons rfl rfl (.cons rfl rfl .nil)
  exact ⟨hentries, rfl, rfl, rfl, rfl⟩

end Inference

end PhpTypes
