import PhpTypes.Proofs.ArrayShapes
import PhpTypes.Proofs.Branchings
import PhpTypes.Proofs.Reachability

/-!
# Places in arrays

A place such as `$a['x'][0]` is a variable and a path of keys. An assignment to a place writes the
variable anew, and what the place is evaluated to afterwards is what was assigned. Other places in
the same variable keep their types, as long as the write finds each array on its way by its key.
-/

namespace PhpTypes.Inference

open Source Ty

variable {α β : Type} {s : Site} {f g : Frame} {m n : Memory}

/-! Attempts. -/

private theorem ending_try_bind {x : Attempt α} {a : α} (h : ending x.run f m = (.ok (.ok a, g), n))
    (next : α → Attempt β) : ending (x >>= next).run f m = ending (next a).run g n :=
  ending_bind_ok h _

private theorem ending_lift_bind {x : Eval α} {a : α} (h : ending x f m = (.ok (a, g), n))
    (next : α → Attempt β) :
    ending (liftM x >>= next : Attempt β).run f m = ending (next a).run g n := by
  apply ending_try_bind
  change ending (x >>= fun a => pure (Except.ok a)) f m = _
  rw [ending_bind_ok h, ending_pure]

private theorem ending_settle_ok {x : Attempt Ty} {t : Ty}
    (h : ending x.run f m = (.ok (.ok t, g), n)) : ending (settle x) f m = (.ok (t, g), n) := by
  unfold settle
  rw [ending_bind_ok h]
  rfl

/-! Places. -/

/-- The type of a variable, if it has one. The object at hand is always there. -/
def Site.boundType? (s : Site) (scope : Scope) (name : String) : Option Ty :=
  if name == "this" then some s.thisType else scope.get? name

/-- A variable is set, unless it is the object at hand. -/
def Frame.assign (f : Frame) (name : String) (t : Ty) : Frame :=
  if name == "this" then f else { f with scope := f.scope.set name t }

theorem Site.boundType?_of_ne {name : String} (h : name ≠ "this") (scope : Scope) :
    s.boundType? scope name = scope.get? name :=
  if_neg (by simpa using h)

theorem Frame.assign_of_ne {name : String} (h : name ≠ "this") (f : Frame) (t : Ty) :
    f.assign name t = { f with scope := f.scope.set name t } :=
  if_neg (by simpa using h)

/-- A place in a variable, with literals for its keys. -/
inductive Place : Expr → String → List Key → Prop where
  | var {pos name} : Place (.var pos name) name []
  | index {pos container key name ks k} : Place container name ks →
    literalType? key = some (ofKey k) → Place (.index pos container key) name (ks ++ [k])

private theorem ending_key {key : Expr} {k : Key} (h : literalType? key = some (ofKey k))
    (f : Frame) (m : Memory) : ending (settle (eval s key)) f m = (.ok (ofKey k, f), m) := by
  rw [eval_literal h]
  rfl

namespace Place

variable {e : Expr} {name : String} {ks : List Key}

theorem isPlace_eq (h : Place e name ks) : isPlace e = true := by
  cases h <;> rfl

/-- The type of a place is read key by key. -/
theorem ending_eval (h : Place e name ks) (f : Frame) (m : Memory) :
    ending (settle (eval s e)) f m =
      (.ok (readPath ((s.boundType? f.scope name).getD .unknown) ks, f), m) := by
  induction h with
  | var =>
    simp only [eval, variableType, Site.boundType?]
    split <;> rfl
  | index _ hkey ih =>
    apply ending_settle_ok
    rw [eval, ending_lift_bind ih, ending_lift_bind (ending_key hkey f m),
      readPath_append_singleton]
    rfl

theorem ending_currentOf (h : Place e name ks) {c : Option Ty}
    (hc : ending (current s e) f m = (.ok (c, f), m)) :
    ending (currentOf e (current s e) (settle (eval s e))) f m = (.ok (c, f), m) := by
  rw [currentOf, if_pos h.isPlace_eq, hc]

/-- A place is found by the keys of entries. -/
theorem ending_current (h : Place e name ks) (f : Frame) (m : Memory) :
    ending (current s e) f m = (.ok (placeAt (f.scope.get? name) ks, f), m) := by
  induction h with
  | var =>
    rw [current]
    rfl
  | index hplace hkey ih =>
    rw [current, ending_bind_ok (hplace.ending_currentOf ih), placeAt_append_singleton]
    cases hc : placeAt (f.scope.get? _) _ with
    | none => rfl
    | some outer =>
      change ending (settle (eval s _) >>= fun k => pure (entryOf outer k)) f m = _
      rw [ending_bind_ok (ending_key hkey f m), ending_pure]
      rfl

/-- To assign to a place is to write its variable anew. -/
theorem ending_assignTo (h : Place e name ks) (t : Ty) (f : Frame) (m : Memory) :
    ending (assignTo s t e).run f m =
      (.ok (.ok (), f.assign name (writePath t ks (f.scope.get? name))), m) := by
  induction h generalizing t with
  | var =>
    rw [assignTo, Frame.assign]
    split <;> rfl
  | index hplace hkey ih =>
    rw [assignTo, ending_lift_bind (hplace.ending_currentOf (hplace.ending_current f m)),
      ending_lift_bind (ending_key hkey f m), ih, writePath_append_singleton]

theorem ending_assign (h : Place e name ks) {value : Expr} {t : Ty}
    (hvalue : ending (settle (eval s value)) f m = (.ok (t, g), n)) (pos : Pos) :
    ending (settle (eval s (.assign pos none e value))) f m =
      (.ok (t, g.assign name (writePath t ks (g.scope.get? name))), n) := by
  apply ending_settle_ok
  rw [eval, ending_lift_bind hvalue, ending_try_bind (h.ending_assignTo t g n)]
  rfl

end Place

/-! What is read after an assignment. -/

/-- The places that a place is in, up to the variable. -/
def containers : Expr → List Expr
  | .index _ container _ => container :: containers container
  | _ => []

theorem Place.exists_container {e : Expr} {name : String} {ks p : List Key} (h : Place e name ks)
    (hp : p <+: ks) (hne : p ≠ ks) : ∃ c ∈ containers e, Place c name p := by
  induction h with
  | var => exact (hne (List.prefix_nil.mp hp)).elim
  | @index pos container key name ks k hplace hkey ih =>
    have hp : p <+: ks := (List.prefix_concat_iff.mp hp).resolve_left hne
    by_cases heq : p = ks
    · exact ⟨container, List.mem_cons_self, heq ▸ hplace⟩
    · obtain ⟨c, hc, hplace⟩ := ih hp heq
      exact ⟨c, List.mem_cons_of_mem container hc, hplace⟩

private theorem unionNode_unary (op : UnaryOp) {t : Ty} (h : t.UnionNode) :
    (unary op t).UnionNode := by
  have hsigned : ∀ change, (signed change t).UnionNode := by
    intro change
    unfold signed
    split
    · rename_i n hn
      have hwiden : t.widen.UnionNode := by
        cases t with
        | union ts => cases hn
        | _ => trivial
      cases hm : ofNumber? (change n) with
      | none => exact hwiden
      | some u => exact (every_ofNumber? unionNode_property hm).self
    · split
      · exact h
      · exact (every_intOrFloat unionNode_property).self
  cases op with
  | minus => exact hsigned _
  | plus => exact hsigned _
  | silence => exact h
  | _ => trivial

private theorem unionNode_literal : ∀ {e : Expr} {t : Ty}, literalType? e = some t → t.UnionNode
  | .int _ n, _, h => by
    cases h
    exact (every_ofNumber?_getD unionNode_property _ (every_leaf unionNode_property rfl rfl)).self
  | .float _ _, _, h | .string _ _ _, _, h | .bool _ _, _, h | .null _, _, h => by
    cases h
    trivial
  | .unary _ op _, _, h => by
    obtain ⟨t, ht, rfl⟩ := Option.map_eq_some_iff.mp h
    exact unionNode_unary op (unionNode_literal ht)
  | .array _ _, _, h => by
    obtain ⟨g, -, rfl⟩ := Option.map_eq_some_iff.mp h
    unfold Gathered.type
    split <;> trivial

/-- The object at hand is no array. -/
theorem shape?_thisType (s : Site) : shape? (some s.thisType) = none := by
  rw [Site.thisType]
  cases s.owner with
  | none => rfl
  | some c => rfl

private theorem ne_this_of_shape? {scope : Scope} {name : String} {items : List Item}
    (h : shape? (s.boundType? scope name) = some items) : name ≠ "this" := by
  rintro rfl
  have hthis : s.boundType? scope "this" = some s.thisType := rfl
  rw [hthis, shape?_thisType] at h
  cases h

/-- The type of a variable after a write to one of its places. -/
theorem boundType?_assign {name : String} (hthis : name ≠ "this") (f : Frame) (t : Ty) :
    s.boundType? (f.assign name t).scope name = some t := by
  rw [Frame.assign_of_ne hthis, Site.boundType?_of_ne hthis, Scope.get?_set_self]

/-- What is assigned to a place is read there afterwards, and other variables stay as they are. -/
theorem read_assigned {target value : Expr} {name : String} {ks : List Key}
    (hplace : Place target name ks) (hne : ks ≠ [])
    (hvariable : ∃ items, shape? (s.boundType? f.scope name) = some items)
    (hcurrent : ∀ c ∈ containers target, ∃ place items,
      ending (current s c) f m = (.ok (place, f), m) ∧ shape? place = some items)
    (hvalue : isOperand value = true) (pos : Pos) :
    ∃ t g, ending (settle (eval s value)) f m = (.ok (t, f), m) ∧
      ending (settle (eval s (.assign pos none target value))) f m = (.ok (t, g), m) ∧
      (∀ n, ending (settle (eval s target)) g n = (.ok (unionOf [t], g), n)) ∧
      ∀ x, x ≠ name → g.scope.get? x = f.scope.get? x := by
  obtain ⟨t, ht⟩ := ending_operand (s := s) hvalue f m
  obtain ⟨_, hitems⟩ := hvariable
  have hthis := ne_this_of_shape? hitems
  -- Each beginning of the path is the path of a container of the target.
  have hshapes : ∀ p, p <+: ks → p ≠ ks →
      ∃ items, shape? (placeAt (f.scope.get? name) p) = some items := by
    intro p hp hpne
    obtain ⟨c, hc, hinner⟩ := hplace.exists_container hp hpne
    obtain ⟨place, items, hend, hitems⟩ := hcurrent c hc
    rw [hinner.ending_current] at hend
    cases hend
    exact ⟨items, hitems⟩
  refine ⟨t, _, ht, hplace.ending_assign ht pos, fun n => ?_, fun x hx => ?_⟩
  · rw [hplace.ending_eval, boundType?_assign hthis, Option.getD_some,
      readPath_writePath_self hne hshapes]
  · rw [Frame.assign_of_ne hthis]
    exact Scope.get?_set_ne _ hx _

/-- The type of an operand is a union in its own right, as long as those of the variables are. -/
theorem unionNode_operand {value : Expr} (hvalue : isOperand value = true)
    (hscope : ∀ x u, f.scope.get? x = some u → u.UnionNode) {t : Ty}
    (ht : ending (settle (eval s value)) f m = (.ok (t, f), m)) : t.UnionNode := by
  rcases isOperand_cases (s := s) hvalue with ⟨pos, name, rfl⟩ | ⟨u, hu, -⟩
  · rw [(Place.var : Place (.var pos name) name []).ending_eval] at ht
    cases ht
    change ((s.boundType? f.scope name).getD .unknown).UnionNode
    by_cases hthis : name = "this"
    · subst hthis
      have hobject : s.boundType? f.scope "this" = some s.thisType := rfl
      rw [hobject, Option.getD_some, Site.thisType]
      cases s.owner <;> trivial
    · rw [Site.boundType?_of_ne hthis]
      cases hx : f.scope.get? name with
      | none => trivial
      | some u => exact hscope name u hx
  · rw [eval_literal hu] at ht
    cases ht
    exact unionNode_literal hu

/-- Arrays keep what is written to them. Under a known key a write is read again and leaves what is
under other keys; under a key that is not known it gives a map of all keys and all values. What is
assigned to a place is read at that place. -/
theorem arrays_keep_writes :
    (∀ (c : Option Ty) (items : List Item) (k : Key) (v : Ty), shape? c = some items →
      readIndex (writeIndex c (some (ofKey k)) v) (ofKey k) = v ∧
      ∀ l, l ≠ k → readIndex (writeIndex c (some (ofKey k)) v) (ofKey l) =
        readIndex (.array items) (ofKey l)) ∧
    (∀ (c : Option Ty) (k v : Ty),
      ((∃ items, shape? c = some items) ∨ ∃ key value, c = some (.map key value)) →
      (∀ t ∈ c, t.Every UnionNode) → k.Every UnionNode → v.Every UnionNode →
      k.literalKey? = none →
      ∃ keys values, writeIndex c (some k) v = .map (some keys) values ∧
        MembersOf keys ((heldTypes c).map Prod.fst ++ [k]) ∧
        MembersOf values ((heldTypes c).map Prod.snd ++ [v])) ∧
    ∀ (s : Site) (f : Frame) (m : Memory) (target value : Expr) (name : String) (ks : List Key)
      (pos : Pos), Place target name ks → ks ≠ [] →
      (∃ items, shape? (s.boundType? f.scope name) = some items) →
      (∀ c ∈ containers target, ∃ place items,
        ending (current s c) f m = (.ok (place, f), m) ∧ shape? place = some items) →
      isOperand value = true →
      ∃ t g, ending (settle (eval s value)) f m = (.ok (t, f), m) ∧
        ending (settle (eval s (.assign pos none target value))) f m = (.ok (t, g), m) ∧
        (∀ n, ending (settle (eval s target)) g n = (.ok (unionOf [t], g), n)) ∧
        ((∀ x u, f.scope.get? x = some u → u.UnionNode) → unionOf [t] = t) ∧
        ∀ x, x ≠ name → g.scope.get? x = f.scope.get? x := by
  refine ⟨?_, ?_, ?_⟩
  · intro c items k v hc
    rw [writeIndex_of_shape? hc]
    exact ⟨readIndex_writeShape_self items k v,
      fun l hl => readIndex_writeShape_ne items hl v⟩
  · intro c k v hc hheld hk hv hkey
    have helements := every_heldTypes hheld
    refine ⟨_, _, writeIndex_eq_map hc hkey, ?_, ?_⟩
    · apply membersOf_unionOf_held _ hk
      simpa using fun a b h => (helements (a, b) h).1
    · apply membersOf_unionOf_held _ hv
      simpa using fun a b h => (helements (b, a) h).2
  · intro s f m target value name ks pos hplace hne hvariable hcurrent hvalue
    obtain ⟨t, g, ht, hassign, hread, hothers⟩ :=
      read_assigned hplace hne hvariable hcurrent hvalue pos
    exact ⟨t, g, ht, hassign, hread,
      fun hscope => unionOf_singleton (unionNode_operand hvalue hscope ht), hothers⟩

/-- An element of an element of a variable. -/
def element (name : String) (outer inner : Expr) : Expr :=
  .index ⟨1, 1⟩ (.index ⟨1, 1⟩ (.var ⟨1, 1⟩ name) outer) inner

private theorem place_element (name : String) {outer inner : Expr} {k l : Key}
    (houter : literalType? outer = some (ofKey k)) (hinner : literalType? inner = some (ofKey l)) :
    Place (element name outer inner) name [k, l] :=
  .index (.index .var houter) hinner

/-- `['x' => 1]` -/
def keyedOne : Ty := .array [.of (some (.str "x")) (.int (some 1))]

/-- A write of a truth value to `['x' => 1]`, under `'y'` and under some string, and the assignment
`$a['x'][0] = 1`, where nothing is known of `$a`. -/
theorem smallArrays_keep_writes :
    readIndex (writeIndex (some keyedOne) (some (ofKey (.str "y"))) .boolean) (ofKey (.str "y")) =
      .boolean ∧
    (∃ keys values, writeIndex (some keyedOne) (some (.string none)) .boolean =
        .map (some keys) values ∧
      MembersOf values [.int (some 1), .boolean]) ∧
    ∃ t g, ending (settle (eval emptySite (.assign ⟨1, 1⟩ none
        (element "a" (.string ⟨1, 1⟩ "x" false) (.int ⟨1, 1⟩ 0)) (.int ⟨1, 1⟩ 1))))
        ⟨.empty, []⟩ .empty = (.ok (t, g), .empty) ∧
      ending (settle (eval emptySite (element "a" (.string ⟨1, 1⟩ "x" false) (.int ⟨1, 1⟩ 0))))
        g .empty = (.ok (t, g), .empty) := by
  refine ⟨(arrays_keep_writes.1 _ _ (.str "y") .boolean rfl).1, ?_, ?_⟩
  · have hleaf : ∀ {t : Ty}, t.isPlain = true → t.parts = [t] → t.Every UnionNode :=
      every_leaf unionNode_property
    have hone : keyedOne.Every UnionNode := by
      apply every_arrayOf unionNode_property
      intro i hi
      rw [List.mem_singleton.mp hi]
      exact every_int unionNode_property (by decide) (by decide)
    obtain ⟨keys, values, hmap, -, hvalues⟩ := arrays_keep_writes.2.1 (some keyedOne)
      (.string none) .boolean (.inl ⟨_, rfl⟩) (by rintro _ ⟨⟩; exact hone) (hleaf rfl rfl)
      (hleaf rfl rfl) rfl
    exact ⟨keys, values, hmap, hvalues⟩
  · have hplace : Place (element "a" (.string ⟨1, 1⟩ "x" false) (.int ⟨1, 1⟩ 0)) "a"
        [.str "x", .int 0] := place_element "a" rfl rfl
    obtain ⟨t, g, -, hassign, hread, hunion, -⟩ := arrays_keep_writes.2.2 emptySite ⟨.empty, []⟩
      .empty _ (.int ⟨1, 1⟩ 1) "a" _ ⟨1, 1⟩ hplace (by simp) ⟨[], rfl⟩
      (by simpa [element, containers] using ⟨⟨none, rfl, [], rfl⟩, ⟨none, rfl, [], rfl⟩⟩) rfl
    have hempty : unionOf [t] = t := hunion fun x u hx => by cases hx
    exact ⟨t, g, hassign, hempty ▸ hread .empty⟩

/-- After an assignment, another place in the same variable has the type it had before, if each key
that both have in common is that of an entry. Otherwise nothing is known of it any more. -/
theorem apart_after_assign {target place value : Expr} {name : String} {p q : List Key} {t v : Ty}
    (htarget : Place target name p) (hplace : Place place name q) (hapart : Apart p q)
    (ht : s.boundType? f.scope name = some t) (hshapes : SharedShapes t p q)
    (hvalue : ending (settle (eval s value)) f m = (.ok (v, g), n))
    (hkept : s.boundType? g.scope name = some t) (pos : Pos) :
    ∃ before after h,
      (∀ k, ending (settle (eval s place)) f k = (.ok (before, f), k)) ∧
      ending (settle (eval s (.assign pos none target value))) f m = (.ok (v, h), n) ∧
      (∀ k, ending (settle (eval s place)) h k = (.ok (after, h), k)) ∧
      (SharedKeys t p q → after = before) ∧ (¬ SharedKeys t p q → after = .unknown) := by
  obtain ⟨items, rfl⟩ : ∃ items, t = .array items :=
    hshapes [] List.nil_prefix List.nil_prefix
  have hshape : shape? (s.boundType? f.scope name) = some items := by
    rw [ht]
    rfl
  -- The object at hand cannot be assigned to, but it is no array either.
  have hthis := ne_this_of_shape? hshape
  have hg : g.scope.get? name = some (.array items) := by
    rw [← Site.boundType?_of_ne (s := s) hthis, hkept]
  refine ⟨_, _, _, hplace.ending_eval f, htarget.ending_assign hvalue pos,
    hplace.ending_eval _, ?_⟩
  rw [boundType?_assign hthis, ht, hg]
  exact readPath_writePath_apart hapart hshapes v

/-- A frame in which `$a` is the only variable. -/
def holding (t : Ty) : Frame := ⟨Scope.empty.set "a" t, []⟩

/-- `['x' => ['y' => 1]]` -/
def keyedPair : Ty :=
  .array [.of (some (.str "x")) (.array [.of (some (.str "y")) (.int (some 1))])]

/-- `$a['x']['z'] = 3` leaves `$a['x']['y']`. -/
theorem keyedElement_kept :
    ∃ before after h,
      (∀ k, ending (settle (eval emptySite
        (element "a" (.string ⟨1, 1⟩ "x" false) (.string ⟨1, 1⟩ "y" false)))) (holding keyedPair)
          k = (.ok (before, holding keyedPair), k)) ∧
      ending (settle (eval emptySite (.assign ⟨1, 1⟩ none
        (element "a" (.string ⟨1, 1⟩ "x" false) (.string ⟨1, 1⟩ "z" false)) (.int ⟨1, 1⟩ 3))))
        (holding keyedPair) .empty = (.ok (.int (some 3), h), .empty) ∧
      (∀ k, ending (settle (eval emptySite
        (element "a" (.string ⟨1, 1⟩ "x" false) (.string ⟨1, 1⟩ "y" false)))) h k =
          (.ok (after, h), k)) ∧
      after = before := by
  have htarget : Place (element "a" (.string ⟨1, 1⟩ "x" false) (.string ⟨1, 1⟩ "z" false)) "a"
      [.str "x", .str "z"] := place_element "a" rfl rfl
  have hplace : Place (element "a" (.string ⟨1, 1⟩ "x" false) (.string ⟨1, 1⟩ "y" false)) "a"
      [.str "x", .str "y"] := place_element "a" rfl rfl
  have hheld : emptySite.boundType? (holding keyedPair).scope "a" = some keyedPair := rfl
  have hvalue : ending (settle (eval emptySite (.int ⟨1, 1⟩ 3))) (holding keyedPair) .empty =
      (.ok (.int (some 3), holding keyedPair), .empty) := rfl
  have hshapes : SharedShapes keyedPair [.str "x", .str "z"] [.str "x", .str "y"] :=
    sharedShapes_cons (sharedShapes_of_ne _ (by decide) [] [])
  have hkeys : SharedKeys keyedPair [.str "x", .str "z"] [.str "x", .str "y"] :=
    sharedKeys_cons.mpr ⟨by decide, sharedKeys_of_ne (by decide) [] []⟩
  obtain ⟨before, after, h, hbefore, hassign, hafter, hkept, -⟩ := apart_after_assign htarget
    hplace ⟨by decide, by decide⟩ hheld hshapes hvalue hheld ⟨1, 1⟩
  exact ⟨before, after, h, hbefore, hassign, hafter, hkept hkeys⟩

/-- `[[1, 2], 5]` -/
def positionalPair : Ty :=
  .array [.of none (.array [.of none (.int (some 1)), .of none (.int (some 2))]),
    .of none (.int (some 5))]

/-- `$a[0]['x'] = 3` does not find the array at `$a[0]`, and `$a[0][0]` is lost. -/
theorem positionalElement_lost :
    ∃ h,
      ending (settle (eval emptySite (element "a" (.int ⟨1, 1⟩ 0) (.int ⟨1, 1⟩ 0))))
        (holding positionalPair) .empty =
          (.ok (.int (some 1), holding positionalPair), .empty) ∧
      ending (settle (eval emptySite (.assign ⟨1, 1⟩ none
        (element "a" (.int ⟨1, 1⟩ 0) (.string ⟨1, 1⟩ "x" false)) (.int ⟨1, 1⟩ 3))))
        (holding positionalPair) .empty = (.ok (.int (some 3), h), .empty) ∧
      ending (settle (eval emptySite (element "a" (.int ⟨1, 1⟩ 0) (.int ⟨1, 1⟩ 0)))) h .empty =
        (.ok (.unknown, h), .empty) :=
  ⟨_, rfl, rfl, rfl⟩

end PhpTypes.Inference
