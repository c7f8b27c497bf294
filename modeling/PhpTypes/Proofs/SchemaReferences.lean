import Mathlib.Data.List.Forall2
import PhpTypes.Proofs.ExtensionQuestions
import PhpTypes.Proofs.WellFormed

/-!
# References in schemas

The schema of a type, and of all its parts, is made with the extensions being asked at every level.
Whatever has been registered on the way, also for a schema that is not used in the end, stays
registered, and a schema that is returned refers to registered schemas only. This holds for any
number of types one after the other.
-/

namespace PhpTypes.OpenApi

variable {α β : Type}

/-! Types. -/

/-- From a state with `P`, two runs end alike, the second with notes of a history of proper
questions. A result has `Q`, and a failure is a case of `F`. -/
def Tracks (es : List Extension) (P : Components → Prop) (x : Generation α) (y : Noted α)
    (Q : Components → α → Prop) (F : Prop) : Prop :=
  ∀ c notes, P c → ∃ r c' qs, ends x c = (r, c') ∧ endsNoted y c notes = ((r, c'), notes ++ qs) ∧
    History es c qs c' ∧ (∀ a, r = .ok a → Q c' a) ∧ ∀ error, r = .error error → F

namespace Tracks

variable {es : List Extension} {P : Components → Prop} {Q : Components → α → Prop}
  {R : Components → β → Prop} {F G : Prop} {x : Generation α} {y : Noted α}

theorem pure {a : α} (h : ∀ c, P c → Q c a) : Tracks es P (pure a) (pure a) Q F := by
  intro c notes hc
  refine ⟨.ok a, c, [], rfl, by rw [List.append_nil]; rfl, .nil, ?_, fun _ h => nomatch h⟩
  rintro _ ⟨⟩
  exact h c hc

theorem throw (error : SchemaError) (h : F) :
    Tracks es P (throw error : Generation α) (MonadExcept.throw error) Q F := by
  intro c notes _
  exact ⟨.error error, c, [], rfl, by rw [List.append_nil]; rfl, .nil, fun _ h => (nomatch h),
    fun _ _ => h⟩

theorem bind (h : Tracks es P x y Q F) {f : α → Generation β} {g : α → Noted β}
    (hnext : ∀ a, Tracks es (Q · a) (f a) (g a) R F) : Tracks es P (x >>= f) (y >>= g) R F := by
  intro c notes hc
  obtain ⟨r, c₁, qs, hx, hy, hhistory, hok, herror⟩ := h c notes hc
  cases r with
  | ok a =>
    obtain ⟨r, c₂, rs, hf, hg, hnextHistory, hresult⟩ := hnext a c₁ (notes ++ qs) (hok a rfl)
    refine ⟨r, c₂, qs ++ rs, ?_, ?_, hhistory.append hnextHistory, hresult⟩
    · rw [ends_bind_ok hx, hf]
    · rw [endsNoted_bind_ok hy, hg, List.append_assoc]
  | error e =>
    exact ⟨.error e, c₁, qs, ends_bind_error hx f, endsNoted_bind_error hy g, hhistory,
      fun _ h => (nomatch h), fun _ _ => herror e rfl⟩

theorem weaken (h : Tracks es P x y Q F) (hF : F → G) : Tracks es P x y Q G := by
  intro c notes hc
  obtain ⟨r, c', qs, hx, hy, hhistory, hok, herror⟩ := h c notes hc
  exact ⟨r, c', qs, hx, hy, hhistory, hok, fun e he => hF (herror e he)⟩

/-- What stays true with more schemas registered is true at the end of a run. -/
theorem keep (h : Tracks es (fun _ => True) x y Q F) {I : Components → Prop}
    (hI : ∀ c c', Keeps c c' → I c → I c') :
    Tracks es I x y (fun c a => Q c a ∧ I c) F := by
  intro c notes hc
  obtain ⟨r, c', qs, hx, hy, hhistory, hok, herror⟩ := h c notes trivial
  exact ⟨r, c', qs, hx, hy, hhistory, fun a ha => ⟨hok a ha, hI c c' hhistory.keeps hc⟩, herror⟩

theorem inside (h : Tracks es P x y Q F) : Tracks es P (inside x) (OpenApi.inside y) Q F := by
  intro c notes hc
  obtain ⟨r, c', qs, hx, hy, hhistory, hok, herror⟩ := h c notes hc
  refine ⟨r.mapError fun _ => .onlyNullsInside, c', qs, ?_, ?_, hhistory, ?_, ?_⟩
  · rw [ends_inside, hx]
  · rw [endsNoted_inside, hy]
  · cases r with
    | ok a => exact hok
    | error e => exact fun _ h => nomatch h
  · cases r with
    | ok a => exact fun _ h => nomatch h
    | error e => exact fun _ _ => herror e rfl

end Tracks

/-- What extensions make of a type, if its parts are in order. -/
theorem Tracks.extended {es : List Extension} (hes : ∀ e ∈ es, e.RefersToPrevious) {F : Prop}
    {x : Generation Schema} {y : Noted Schema} (h : Tracks es (fun _ => True) x y Registered F)
    (t : Ty) :
    Tracks es (fun _ => True) (extended askPlainly es t x) (OpenApi.extended askNoting es t y)
      Registered F := by
  apply h.bind
  intro s
  have hhandled : Tracks es (Registered · s) (handled askPlainly es t) (handled askNoting es t)
      (fun c r => Registered c (r.getD s)) F := by
    intro c notes hs
    obtain ⟨r, c', qs, hplain, hnoted, hhistory, hconsulted⟩ :=
      handled_steps (fun e he => he) t c notes
    refine ⟨.ok r, c', qs, hplain, hnoted, hhistory, ?_, fun _ h => nomatch h⟩
    -- Without an own schema the built-in one counts, whose references are still registered.
    rintro _ ⟨⟩
    cases r with
    | none => exact hs.keeps hhistory.keeps
    | some own => exact hconsulted.registered hes own rfl
  exact hhandled.bind fun r => .pure fun _ hr => hr

private theorem eq_null_of_isNull {t : Ty} (h : t.isNull = true) : t = .null := by
  cases t with
  | null => rfl
  | _ => cases h

/-- Two nulls are no union. -/
theorem not_every_of_onlyNulls {types : List Ty} (h : pairing types = .onlyNulls) :
    ¬ (Ty.union types).Every Ty.UnionNode := by
  intro hevery
  have hnormal : Ty.Normal types := (Ty.every_union.mp hevery).1
  unfold pairing at h
  split at h
  · rename_i a b
    split at h
    · rename_i hnulls
      rw [Bool.and_eq_true] at hnulls
      have hdistinct := hnormal.distinct
      rw [eq_null_of_isNull hnulls.1, eq_null_of_isNull hnulls.2] at hdistinct
      simp [Ty.same] at hdistinct
    · split at h
      · cases h
      · split at h <;> cases h
  · cases h

section

variable {es : List Extension} (hes : ∀ e ∈ es, e.RefersToPrevious)
include hes

-- The induction is on the type. A part that has no schema is not well formed, and then the whole
-- type is not.
mutual

private theorem builtIn_tracks : ∀ t : Ty, Tracks es (fun _ => True) (builtIn askPlainly es t)
    (builtIn askNoting es t) Registered (¬ t.Every Ty.UnionNode)
  | .array items => by
    have hitems : (∃ i ∈ items, ¬ i.value.Every Ty.UnionNode) →
        ¬ (Ty.array items).Every Ty.UnionNode :=
      fun ⟨i, hi, hvalue⟩ h => hvalue ((Ty.every_array.mp h).2 i hi)
    rw [builtIn, builtIn]
    split
    · exact ((firstSchema_tracks items).weaken hitems).bind fun s => .pure fun _ hs => hs.array _
    · exact ((itemSchemas_tracks 0 items).weaken hitems).bind fun ps =>
        .pure fun _ hps => registered_objectOf hps
  | .map none value => by
    have hvalue := (builtIn_tracks value).extended hes value
    rw [builtIn, builtIn]
    refine (hvalue.weaken fun hv h => hv (Ty.every_map.mp h).2.2).bind fun s => ?_
    exact .pure fun _ hs => hs.array _
  | .map (some key) value => by
    have hvalue := (builtIn_tracks value).extended hes value
    have hkey := (builtIn_tracks key).extended hes key
    rw [builtIn, builtIn]
    refine (hvalue.weaken fun hv h => hv (Ty.every_map.mp h).2.2).bind fun v => ?_
    refine ((hkey.weaken fun hk h => hk ((Ty.every_map.mp h).2.1 key rfl)).keep
      fun _ _ hc hv => Registered.keeps hv hc).bind fun k => ?_
    exact .pure fun _ h => h.2.mapSchema k
  | .union types => by
    have htypes : (∃ t ∈ types, ¬ t.Every Ty.UnionNode) →
        ¬ (Ty.union types).Every Ty.UnionNode :=
      fun ⟨t, ht, hnot⟩ h => hnot ((Ty.every_union.mp h).2 t ht)
    rw [builtIn, builtIn]
    cases hpairing : pairing types with
    | onlyNulls => exact .throw _ (not_every_of_onlyNulls hpairing)
    | notNull first =>
      refine ((eitherSchema_tracks first types).weaken htypes).bind fun s => ?_
      exact .pure fun _ hs => hs.mapNotes _
    | other =>
      refine ((schemas_tracks types).inside.weaken htypes).bind fun ss => ?_
      exact .pure fun _ hss => registered_of_all (by rw [Schema.references]) hss
  | .intersection types => by
    have htypes : (∃ t ∈ types, ¬ t.Every Ty.UnionNode) →
        ¬ (Ty.intersection types).Every Ty.UnionNode :=
      fun ⟨t, ht, hnot⟩ h => hnot ((Ty.every_intersection.mp h).2 t ht)
    rw [builtIn, builtIn]
    refine ((schemas_tracks types).inside.weaken htypes).bind fun ss => ?_
    exact .pure fun _ hss => registered_of_all (by rw [Schema.references]) hss
  | .string _ | .float _ | .int _ | .boolean | .null | .unknown | .function _ _ => by
    rw [builtIn, builtIn]
    exact .pure fun c _ => registered_plain c _
  | .object _ _ => by
    rw [builtIn, builtIn]
    have hempty : ∀ c, Registered c (objectOf []) :=
      fun c => registered_objectOf (List.forall_mem_nil _)
    exact .pure fun c _ => hempty c

private theorem schemas_tracks :
    ∀ ts : List Ty, Tracks es (fun _ => True) (schemas askPlainly es ts)
    (schemas askNoting es ts) (fun c ss => ∀ s ∈ ss, Registered c s)
    (∃ t ∈ ts, ¬ t.Every Ty.UnionNode)
  | [] => by
    rw [schemas, schemas]
    exact .pure fun _ _ => List.forall_mem_nil _
  | t :: ts => by
    have hfirst := (builtIn_tracks t).extended hes t
    rw [schemas, schemas]
    refine (hfirst.weaken fun h => ⟨t, List.mem_cons_self, h⟩).bind fun s => ?_
    have hrest := (schemas_tracks ts).weaken fun ⟨u, hu, h⟩ =>
      (⟨u, List.mem_cons_of_mem t hu, h⟩ : ∃ u ∈ t :: ts, ¬ u.Every Ty.UnionNode)
    refine (hrest.keep fun _ _ hc hs => Registered.keeps hs hc).bind fun ss => ?_
    exact .pure fun _ h => List.forall_mem_cons.mpr ⟨h.2, h.1⟩

private theorem eitherSchema_tracks (first : Bool) : ∀ ts : List Ty, Tracks es (fun _ => True)
    (eitherSchema askPlainly es first ts) (eitherSchema askNoting es first ts) Registered
    (∃ t ∈ ts, ¬ t.Every Ty.UnionNode)
  | [a, b] => by
    have ha := (builtIn_tracks a).extended hes a
    have hb := (builtIn_tracks b).extended hes b
    rw [eitherSchema, eitherSchema]
    split
    · exact ha.weaken fun h => ⟨a, by simp, h⟩
    · exact hb.weaken fun h => ⟨b, by simp, h⟩
  | [] | [_] | _ :: _ :: _ :: _ => .pure fun c _ => registered_plain c _

private theorem firstSchema_tracks : ∀ items : List Item, Tracks es (fun _ => True)
    (firstSchema askPlainly es items) (firstSchema askNoting es items) Registered
    (∃ i ∈ items, ¬ i.value.Every Ty.UnionNode)
  | [] => .pure fun c _ => registered_plain c _
  | .mk _ value _ _ _ :: _ => by
    have hvalue := (builtIn_tracks value).extended hes value
    rw [firstSchema, firstSchema]
    exact hvalue.weaken fun h => ⟨_, List.mem_cons_self, h⟩

private theorem itemSchemas_tracks (next : Int) : ∀ items : List Item, Tracks es (fun _ => True)
    (itemSchemas askPlainly es next items) (itemSchemas askNoting es next items)
    (fun c ps => ∀ p ∈ ps, Registered c p.schema) (∃ i ∈ items, ¬ i.value.Every Ty.UnionNode)
  | [] => .pure fun _ _ => List.forall_mem_nil _
  | .mk key value isOptional description var :: rest => by
    have hvalue := (builtIn_tracks value).extended hes value
    rw [itemSchemas, itemSchemas]
    refine (hvalue.weaken fun h => ⟨_, List.mem_cons_self, h⟩).bind fun s => ?_
    have hrest := (itemSchemas_tracks (numberKey next key).2 rest).weaken fun ⟨i, hi, h⟩ =>
      (⟨i, List.mem_cons_of_mem _ hi, h⟩ :
        ∃ i ∈ Item.mk key value isOptional description var :: rest, ¬ i.value.Every Ty.UnionNode)
    refine (hrest.keep fun _ _ hc hs => Registered.keeps hs hc).bind fun ps => ?_
    exact .pure fun _ h => List.forall_mem_cons.mpr ⟨h.2.describe description, h.1⟩

end

private theorem transform_tracks (t : Ty) : Tracks es (fun _ => True) (transform es t)
    (transformBy askNoting es t) Registered (¬ t.Every Ty.UnionNode) :=
  (builtIn_tracks hes t).extended hes t

end

/-! Sequences of types. -/

/-- The schemas of types one after the other. What a type has registered stays registered, also if
the type has no schema in the end. -/
def transformEach (es : List Extension) (ts : List Ty) :
    StateM Components (List (Except SchemaError Schema)) :=
  ts.mapM fun t => (transform es t).run

def transformEachNoted (es : List Extension) (ts : List Ty) :
    StateT Components (StateM (List Question)) (List (Except SchemaError Schema)) :=
  ts.mapM fun t => (transformBy askNoting es t).run

private theorem transformEach_cons {es : List Extension} {t : Ty} {ts : List Ty}
    {c c₁ c₂ : Components}
    {r : Except SchemaError Schema} {results : List (Except SchemaError Schema)}
    (hfirst : ends (transform es t) c = (r, c₁))
    (hrest : (transformEach es ts).run c₁ = (results, c₂)) :
    (transformEach es (t :: ts)).run c = (r :: results, c₂) := by
  have hfirst : (transform es t).run.run c = (r, c₁) := hfirst
  rw [transformEach] at hrest ⊢
  rw [List.mapM_cons, StateT.run_bind, hfirst]
  change StateT.run (_ >>= _) c₁ = _
  rw [StateT.run_bind, hrest]
  rfl

private theorem transformEachNoted_cons {es : List Extension} {t : Ty} {ts : List Ty}
    {c c₁ c₂ : Components} {notes notes₁ notes₂ : List Question} {r : Except SchemaError Schema}
    {results : List (Except SchemaError Schema)}
    (hfirst : endsNoted (transformBy askNoting es t) c notes = ((r, c₁), notes₁))
    (hrest : ((transformEachNoted es ts).run c₁).run notes₁ = ((results, c₂), notes₂)) :
    ((transformEachNoted es (t :: ts)).run c).run notes = ((r :: results, c₂), notes₂) := by
  have hfirst : ((transformBy askNoting es t).run.run c).run notes = ((r, c₁), notes₁) := hfirst
  rw [transformEachNoted] at hrest ⊢
  rw [List.mapM_cons, StateT.run_bind, StateT.run_bind, hfirst]
  change StateT.run (StateT.run (_ >>= _) c₁) notes₁ = _
  rw [StateT.run_bind, StateT.run_bind, hrest]
  rfl

/-- What a type has become: a schema that refers to registered schemas only. A well-formed type does
become one. -/
structure Becomes (c : Components) (t : Ty) (r : Except SchemaError Schema) : Prop where
  registered : ∀ s, r = .ok s → ∀ name ∈ s.references, c.has name = true
  exists_ok : t.Every Ty.UnionNode → ∃ s, r = .ok s

theorem Becomes.keeps {c c' : Components} {t : Ty} {r : Except SchemaError Schema}
    (h : Becomes c t r) (hc : Keeps c c') : Becomes c' t r :=
  ⟨fun s hs name hname => hc.has (h.registered s hs name hname), h.exists_ok⟩

private theorem transformEach_history {es : List Extension} (hes : ∀ e ∈ es, e.RefersToPrevious)
    (ts : List Ty) (c : Components) (notes : List Question) :
    ∃ results c' qs, (transformEach es ts).run c = (results, c') ∧
      ((transformEachNoted es ts).run c).run notes = ((results, c'), notes ++ qs) ∧
      History es c qs c' ∧ List.Forall₂ (Becomes c') ts results := by
  induction ts generalizing c notes with
  | nil => exact ⟨[], c, [], rfl, by rw [List.append_nil]; rfl, .nil, .nil⟩
  | cons t ts ih =>
    obtain ⟨r, c₁, qs, hfirst, hfirstNoted, hhistory, hok, herror⟩ :=
      transform_tracks hes t c notes trivial
    obtain ⟨results, c₂, rs, hrest, hrestNoted, hrestHistory, hall⟩ := ih c₁ (notes ++ qs)
    have hbecomes : Becomes c₁ t r := by
      refine ⟨hok, fun ht => ?_⟩
      cases r with
      | ok s => exact ⟨s, rfl⟩
      | error e => exact (herror e rfl ht).elim
    refine ⟨r :: results, c₂, qs ++ rs, transformEach_cons hfirst hrest, ?_,
      hhistory.append hrestHistory, .cons (hbecomes.keeps hrestHistory.keeps) hall⟩
    rw [List.append_assoc] at hrestNoted
    exact transformEachNoted_cons hfirstNoted hrestNoted

/-- Questions that lead from some registered schemas to others: each schema is registered once,
under a name that is free, and no question is asked for a schema that is registered. -/
structure RegistersOnce (es : List Extension) (c : Components) (qs : List Question)
    (c' : Components) : Prop where
  eq_addAll : c' = c.addAll (qs.flatMap Question.additions)
  free : ∀ a ∈ qs.flatMap Question.additions, c.has a.1 = false
  nodup : ((qs.flatMap Question.additions).map Prod.fst).Nodup
  keeps : Keeps c c'
  question : ∀ before q after, qs = before ++ q :: after →
    q.registry = c.addAll (before.flatMap Question.additions) ∧ q.Proper es ∧ Keeps q.registry c'

private theorem History.registersOnce {es : List Extension} {c c' : Components} {qs : List Question}
    (h : History es c qs c') : RegistersOnce es c qs c' where
  eq_addAll := h.eq_addAll
  free := h.additions_free
  nodup := h.additions_nodup
  keeps := h.keeps
  question _ _ _ hqs := h.question hqs

/-- For extensions whose answers bring no references of their own, and types one after the other:
each schema is registered once, no extension is asked for a schema that is registered, and what is
returned refers to registered schemas only. The schema of a type is that of the last extension that
accepts it, each extension being given what the one before it made of the type. -/
theorem transformEach_registersOnce (es : List Extension) (hes : ∀ e ∈ es, e.RefersToPrevious)
    (c : Components) (ts : List Ty) :
    (∃ results c' qs, (transformEach es ts).run c = (results, c') ∧
      ((transformEachNoted es ts).run c).run [] = ((results, c'), qs) ∧
      RegistersOnce es c qs c' ∧ List.Forall₂ (Becomes c') ts results) ∧
    ∀ t c s c₁, ends (builtIn askPlainly es t) c = (.ok s, c₁) →
      ((∀ e ∈ es, e.Declines t none c₁) ∧ ends (transform es t) c = (.ok s, c₁)) ∨
      ∃ before e after previous c₂ own c₃, es = before ++ e :: after ∧
        Consulted t c₁ before previous c₂ ∧ e.Accepts t previous c₂ own c₃ ∧
        (∀ x ∈ after, x.Declines t (some own) c₃) ∧ ends (transform es t) c = (.ok own, c₃) := by
  constructor
  · obtain ⟨results, c', qs, hplain, hnoted, hhistory, hall⟩ := transformEach_history hes ts c []
    exact ⟨results, c', qs, hplain, hnoted, hhistory.registersOnce, hall⟩
  · intro t c s c₁ hbuiltIn
    obtain ⟨r, c', -, hhandled, -, -, hconsulted⟩ := handled_steps (fun e he => he) t c₁ []
    have hends : ends (transform es t) c = (.ok (r.getD s), c') := by
      rw [transform, transformBy, extended, ends_bind_ok hbuiltIn, ends_bind_ok hhandled]
      rfl
    rcases hconsulted.last with ⟨rfl, rfl, hall⟩ | ⟨before, e, after, previous, c₂, own, heq,
      hbefore, haccepts, hafter, rfl⟩
    · exact .inl ⟨hall, hends⟩
    · exact .inr ⟨before, e, after, previous, c₂, own, c', heq, hbefore, haccepts, hafter, hends⟩

/-- Registers the schema of the class `Money`. -/
def moneyExtension : Extension where
  handles
    | .object name _ => name == "Money"
    | _ => false
  reference _ := some "Money"
  toSchema _ _ := some (objectOf [⟨"amount", .ofPlain .integer, false⟩])
  toResponse _ _ := none

/-- The class `Money` and a list of its objects: its schema is asked for once. -/
theorem moneyExtension_asked_once :
    (∀ e ∈ [moneyExtension], e.RefersToPrevious) ∧
    ∃ results c' qs, (transformEach [moneyExtension]
        [.object "Money" none, .map none (.object "Money" none)]).run .empty = (results, c') ∧
      ((transformEachNoted [moneyExtension]
        [.object "Money" none, .map none (.object "Money" none)]).run .empty).run [] =
          ((results, c'), qs) ∧
      RegistersOnce [moneyExtension] .empty qs c' ∧ c'.names = ["Money"] ∧ qs.length = 1 := by
  have hes : ∀ e ∈ [moneyExtension], e.RefersToPrevious := by
    intro e he t previous s hs name hname
    rw [List.mem_singleton.mp he] at hs
    cases hs
    cases hname
  obtain ⟨⟨results, c', qs, hplain, hnoted, honce, -⟩, -⟩ :=
    transformEach_registersOnce [moneyExtension] hes .empty
      [.object "Money" none, .map none (.object "Money" none)]
  refine ⟨hes, results, c', qs, hplain, hnoted, honce, ?_, ?_⟩
  · have hnames : ((transformEach [moneyExtension]
        [.object "Money" none, .map none (.object "Money" none)]).run .empty).2.names =
          ["Money"] := rfl
    rwa [hplain] at hnames
  · have hlength : (((transformEachNoted [moneyExtension]
        [.object "Money" none, .map none (.object "Money" none)]).run .empty).run []).2.length =
          1 := rfl
    rwa [hnoted] at hlength

end PhpTypes.OpenApi
