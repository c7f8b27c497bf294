import PhpTypes.Inference.Evaluate
import PhpTypes.Proofs.Bodies

/-!
# Evaluation keeps a correspondence

If the requests of a place correspond to others, then so does the evaluation of every expression and
every statement there: both give the same types, from some depth on, and all types that occur are
good. The proof follows the evaluation, one case for each form.
-/

namespace PhpTypes.Inference.Correspondence

open Source

variable {α : Type} {K : Correspondence} {p : Program} {s : Site} {ask : Nat → Requests}

/-! Array literals. -/

structure GoodGathered (K : Correspondence) (g : Gathered) : Prop where
  items : ∀ i ∈ g.items, K.Good i.value
  keys : ∀ t ∈ g.keys, K.Good t
  values : ∀ t ∈ g.values, K.Good t

private theorem goodGathered_empty : K.GoodGathered .empty := by
  constructor <;> simp [Gathered.empty]

theorem GoodGathered.add {g : Gathered} (hg : K.GoodGathered g) {item : Item}
    (hi : K.Good item.value) {key : Ty} (hk : K.Good key) : K.GoodGathered (g.add item key) where
  items := Ty.every_withItem hi hg.items
  keys := List.forall_mem_append.mpr ⟨hg.keys, by simpa using hk⟩
  values := List.forall_mem_append.mpr ⟨hg.values, by simpa using hi⟩

theorem GoodGathered.addKeyed (hK : K.Lawful p) {g : Gathered} (hg : K.GoodGathered g) {item : Item}
    (hi : K.Good item.value) {key : Ty} (hk : K.Good key) :
    K.GoodGathered (g.addKeyed item key) := by
  unfold Gathered.addKeyed
  split
  · refine hg.add ?_ (Ty.Every.widen hK.node hk)
    cases item
    exact hi
  · obtain ⟨hitems, hkeys, hvalues⟩ := hg.add hi hk
    exact ⟨hitems, hkeys, hvalues⟩

theorem GoodGathered.addSpread (hK : K.Lawful p) {g : Gathered} (hg : K.GoodGathered g) {t : Ty}
    (ht : K.Good t) : K.GoodGathered (g.addSpread t) := by
  unfold Gathered.addSpread
  split
  · rename_i items
    have hitems := (Ty.every_array.mp ht).2
    clear ht
    induction items generalizing g with
    | nil => exact hg
    | cons i is ih =>
      rw [List.forall_mem_cons] at hitems
      exact ih (hg.add hitems.1 (Ty.every_keyType hK.node i.key)) hitems.2
  · obtain ⟨hk, hv⟩ := Ty.Every.iterate hK.node ht
    exact ⟨hg.items, List.forall_mem_append.mpr ⟨hg.keys, by simpa using hk⟩,
      List.forall_mem_append.mpr ⟨hg.values, by simpa using hv⟩⟩

theorem GoodGathered.type (hK : K.Lawful p) {g : Gathered} (hg : K.GoodGathered g) :
    K.Good g.type := by
  unfold Gathered.type
  split
  · refine Ty.every_mapOf hK.node ?_ (Ty.every_unionOf hK.node hg.values)
    rintro k ⟨⟩
    exact Ty.every_unionOf hK.node hg.keys
  · exact Ty.every_arrayOf hK.node hg.items

/-! Parts of single rules. -/

private theorem currentOf_good (e : Expr) {place : Eval (Option Ty)}
    {place' : Nat → Eval (Option Ty)} {value : Eval Ty} {value' : Nat → Eval Ty}
    (hp : K.RelatesIn place place' fun t => ∀ u ∈ t, K.Good u)
    (hv : K.RelatesIn value value' K.Good) :
    K.RelatesIn (currentOf e place value) (fun D => currentOf e (place' D) (value' D))
      fun t => ∀ u ∈ t, K.Good u := by
  unfold currentOf
  by_cases he : isPlace e
  · simp only [he, if_true]
    exact hp
  · simp only [he]
    exact RelatesIn.bind hv fun t ht => RelatesIn.pure (by rintro u ⟨⟩; exact ht)

theorem Lawful.entryOf (hK : K.Lawful p) {container : Ty} (hc : K.Good container) (index : Ty) :
    ∀ t ∈ entryOf container index, K.Good t := by
  unfold Inference.entryOf
  split
  · simp
  · rintro t ⟨⟩
    exact Ty.Every.readIndex hK.node hc index

theorem Lawful.stepped (hK : K.Lawful p) (target : Expr) {t : Ty} (ht : K.Good t) :
    K.RelatesIn (stepped target t) (fun _ => stepped target t) K.Good := by
  have hwide := Ty.Every.widen hK.node ht
  unfold Inference.stepped
  simp only
  split
  · exact RelatesIn.bind (hK.bindVar hwide _) fun _ _ => RelatesIn.pure hwide
  · exact RelatesIn.bind (hK.bindVar hwide _) fun _ _ => RelatesIn.pure hwide
  · exact RelatesIn.pure hwide

private theorem throughCase_good {first : Eval CaseEnd} {first' : Nat → Eval CaseEnd}
    {rest : Eval Bool} {rest' : Nat → Eval Bool} (hf : K.RelatesIn first first' fun _ => True)
    (hr : K.RelatesIn rest rest' fun _ => True) :
    K.RelatesIn (throughCase first rest) (fun D => throughCase (first' D) (rest' D))
      fun _ => True := by
  refine RelatesIn.bind hf fun e _ => ?_
  cases e with
  | fallsThrough => exact hr
  | breaks => exact RelatesIn.pure trivial
  | terminates => exact RelatesIn.pure trivial

theorem AtSite.catchScope (hs : K.AtSite s ask) (classes : List String) (var : Option String) :
    K.RelatesIn (catchScope s classes var) (fun D => catchScope (s.asking (ask D)) classes var)
      K.GoodScope := by
  refine RelatesIn.bind getScope_good fun scope hscope => ?_
  cases var with
  | none => exact RelatesIn.pure hscope
  | some name =>
    refine RelatesIn.bind (RelatesIn.lift (Relates.mapM (Q := K.Good) classes fun c _ =>
      hs.lawful.resolveName s.context c)) fun ts hts => ?_
    exact RelatesIn.pure (hscope.set (Ty.every_unionOf hs.lawful.node hts) name)

theorem AtSite.inClosure (hs : K.AtSite s ask) {scope : Scope} (hscope : K.GoodScope scope)
    (params : List Param) {body : Eval Ty} {body' : Nat → Eval Ty}
    (hb : K.RelatesIn body body' K.Good) :
    K.RelatesIn (inClosure s scope params body)
      (fun D => inClosure (s.asking (ask D)) scope params (body' D))
      fun r => (∀ t ∈ r.1, K.Good t) ∧ K.Good r.2 :=
  hs.lawful.inFrame hscope (RelatesIn.bind (hs.bindParams .empty params) fun _ hts =>
    RelatesIn.bind hb fun _ ht => RelatesIn.pure ⟨hts, ht⟩)

theorem Lawful.closureScope (hK : K.Lawful p) {scope : Scope} (hs : K.GoodScope scope)
    (uses : List String) : K.GoodScope (closureScope scope uses) := by
  intro t ht
  rcases Dict.mem_values_setAll ht with ht | ht
  · cases ht
  · obtain ⟨e, he, rfl⟩ := List.mem_map.mp ht
    obtain ⟨n, -, rfl⟩ := List.mem_map.mp he
    exact hs.get hK n

/-! Expressions and statements. -/

theorem Lawful.settling (hK : K.Lawful p) {x : Attempt Ty} {y : Nat → Attempt Ty}
    (hx : K.RelatesTry x y K.Good) :
    K.RelatesTry (liftM (Inference.settle x)) (fun D => liftM (Inference.settle (y D))) K.Good :=
  RelatesTry.lift (hK.settle hx)

-- One theorem for each function of the evaluator, by the same recursion on the tree.
mutual

theorem AtSite.eval (hs : K.AtSite s ask) :
    ∀ e : Expr, K.RelatesTry (eval s e) (fun D => eval (s.asking (ask D)) e) K.Good
  | .var _ name => by
    simp only [Inference.eval]
    exact RelatesTry.lift (hs.variableType name)
  | .int _ n => by
    simp only [Inference.eval]
    exact RelatesTry.pure (Ty.every_ofNumber?_getD hs.lawful.node _
      (Ty.every_leaf hs.lawful.node rfl rfl))
  | .float _ x => by
    simp only [Inference.eval]
    exact RelatesTry.pure (Ty.every_float hs.lawful.node x.isNumber)
  | .string _ value interpolated => by
    simp only [Inference.eval]
    exact RelatesTry.pure (Ty.every_leaf hs.lawful.node rfl rfl)
  | .bool _ _ => by
    simp only [Inference.eval]
    exact RelatesTry.pure (Ty.every_leaf hs.lawful.node rfl rfl)
  | .null _ => by
    simp only [Inference.eval]
    exact RelatesTry.pure (Ty.every_leaf hs.lawful.node rfl rfl)
  | .constant pos name => by
    simp only [Inference.eval]
    exact hs.constantFetch pos name
  | .array _ elements => by
    simp only [Inference.eval]
    exact RelatesTry.bind (RelatesTry.lift (hs.gather goodGathered_empty elements)) fun _ hg =>
      RelatesTry.pure (hg.type hs.lawful)
  | .binary _ op left right => by
    simp only [Inference.eval]
    refine RelatesTry.bind (hs.lawful.settling (hs.eval left)) fun _ ha => ?_
    refine RelatesTry.bind (hs.lawful.settling (hs.eval right)) fun _ hb => ?_
    exact RelatesTry.pure (Ty.every_binary hs.lawful.node op ha hb)
  | .unary _ op operand => by
    simp only [Inference.eval]
    refine RelatesTry.bind (hs.lawful.settling (hs.eval operand)) fun _ ha => ?_
    exact RelatesTry.pure (Ty.every_unary hs.lawful.node op ha)
  | .cast pos target operand => by
    simp only [Inference.eval]
    refine RelatesTry.bind (hs.lawful.settling (hs.eval operand)) fun _ ha => ?_
    exact hs.castType pos target ha
  | .step _ _ _ target => by
    simp only [Inference.eval]
    refine RelatesTry.bind (hs.lawful.settling (hs.eval target)) fun _ ha => ?_
    exact RelatesTry.lift (hs.lawful.stepped target ha)
  | .assign _ none target value => by
    simp only [Inference.eval]
    refine RelatesTry.bind (hs.lawful.settling (hs.eval value)) fun _ ha => ?_
    exact RelatesTry.bind (hs.assignTo ha target) fun _ _ => RelatesTry.pure ha
  | .assign _ (some op) target value => by
    simp only [Inference.eval]
    refine RelatesTry.bind (hs.lawful.settling (hs.eval target)) fun _ ha => ?_
    refine RelatesTry.bind (hs.lawful.settling (hs.eval value)) fun _ hb => ?_
    have ht := Ty.every_binary hs.lawful.node op ha hb
    exact RelatesTry.bind (hs.assignTo ht target) fun _ _ => RelatesTry.pure ht
  | .ternary _ condition yes no => by
    simp only [Inference.eval]
    refine RelatesTry.bind (hs.lawful.settling (hs.eval condition)) fun _ _ => ?_
    refine RelatesTry.bind (RelatesTry.lift getScope_good) fun _ hscope => ?_
    refine RelatesTry.bind (RelatesTry.lift
      (hs.lawful.inScope hscope (hs.lawful.settle (hs.eval yes)))) fun _ ha => ?_
    refine RelatesTry.bind (RelatesTry.lift
      (hs.lawful.inScope hscope (hs.lawful.settle (hs.eval no)))) fun _ hb => ?_
    refine RelatesTry.bind (RelatesTry.lift (hs.lawful.join ?_)) fun _ _ => ?_
    · simpa using ⟨ha.2, hb.2⟩
    · refine RelatesTry.pure (Ty.every_unionOf hs.lawful.node ?_)
      simpa using ⟨ha.1, hb.1⟩
  | .elvis _ condition no => by
    simp only [Inference.eval]
    refine RelatesTry.bind (hs.lawful.settling (hs.eval condition)) fun _ ha => ?_
    refine RelatesTry.bind (RelatesTry.lift getScope_good) fun _ hscope => ?_
    refine RelatesTry.bind (RelatesTry.lift
      (hs.lawful.inScope hscope (hs.lawful.settle (hs.eval no)))) fun _ hb => ?_
    refine RelatesTry.bind (RelatesTry.lift (hs.lawful.join ?_)) fun _ _ => ?_
    · simpa using ⟨hscope, hb.2⟩
    · refine RelatesTry.pure (Ty.every_unionOf hs.lawful.node ?_)
      simpa using ⟨ha, hb.1⟩
  | .instanceOf _ operand _ => by
    simp only [Inference.eval]
    refine RelatesTry.bind (hs.lawful.settling (hs.eval operand)) fun _ _ => ?_
    exact RelatesTry.pure (Ty.every_leaf hs.lawful.node rfl rfl)
  | .clone _ operand => by
    simp only [Inference.eval]
    exact hs.lawful.settling (hs.eval operand)
  | .methodCall pos receiver name args nullsafe => by
    simp only [Inference.eval]
    refine RelatesTry.bind (hs.lawful.settling (hs.eval receiver)) fun _ ha => ?_
    refine RelatesTry.bind (RelatesTry.lift (hs.evalArgs args)) fun _ _ => ?_
    exact hs.callMethod pos ha name nullsafe
  | .property _ receiver name nullsafe => by
    simp only [Inference.eval]
    refine RelatesTry.bind (hs.lawful.settling (hs.eval receiver)) fun _ _ => ?_
    exact RelatesTry.liftAnalysis (hs.fetchProperty _ name nullsafe)
  | .index _ container key => by
    simp only [Inference.eval]
    refine RelatesTry.bind (hs.lawful.settling (hs.eval container)) fun _ ha => ?_
    refine RelatesTry.bind (hs.lawful.settling (hs.eval key)) fun _ _ => ?_
    refine RelatesTry.pure (Ty.every_unionOf hs.lawful.node ?_)
    intro t ht
    obtain ⟨m, hm, rfl⟩ := List.mem_map.mp ht
    exact Ty.Every.readIndex hs.lawful.node (ha.member hm) _
  | .append pos container => by
    simp only [Inference.eval]
    exact RelatesTry.bind (hs.lawful.settling (hs.eval container)) fun _ _ => RelatesTry.throw
  | .staticCall pos cls name args => by
    simp only [Inference.eval]
    refine RelatesTry.bind (RelatesTry.lift (hs.evalArgs args)) fun _ _ => ?_
    exact hs.callStatic pos cls name
  | .staticProperty pos cls name => by
    simp only [Inference.eval]
    exact hs.fetchStaticProperty pos cls name
  | .classConstant pos cls name => by
    simp only [Inference.eval]
    exact hs.classConstant pos cls name
  | .call pos name args => by
    simp only [Inference.eval]
    split
    · refine RelatesTry.bind (RelatesTry.forM _ fun n _ =>
        RelatesTry.lift (hs.lawful.unbindVar n)) fun _ _ => ?_
      exact RelatesTry.pure (Ty.every_leaf hs.lawful.node rfl rfl)
    · refine RelatesTry.bind (RelatesTry.lift (hs.evalArgs args)) fun _ _ => ?_
      exact RelatesTry.pure (Ty.every_leaf hs.lawful.node rfl rfl)
    · refine RelatesTry.bind (RelatesTry.lift (hs.compacted (by simp) args)) fun _ hi => ?_
      exact RelatesTry.pure (Ty.every_arrayOf hs.lawful.node hi)
    · refine RelatesTry.bind (RelatesTry.lift (hs.evalArgs args)) fun _ _ => ?_
      exact hs.callFunction pos name
  | .dynamicCall _ name args => by
    simp only [Inference.eval]
    refine RelatesTry.bind (RelatesTry.lift (hs.variableType name)) fun _ hc => ?_
    refine RelatesTry.bind (RelatesTry.lift (hs.evalArgs args)) fun _ _ => ?_
    exact RelatesTry.pure (hs.callValue hc)
  | .new pos cls args => by
    simp only [Inference.eval]
    refine RelatesTry.bind (RelatesTry.lift (hs.evalArgs args)) fun _ _ => ?_
    exact hs.instantiate pos cls
  | .closure _ _ params uses hint _ body => by
    simp only [Inference.eval]
    refine RelatesTry.bind (RelatesTry.lift getScope_good) fun _ hscope => ?_
    refine RelatesTry.bind (RelatesTry.lift
      (hs.inClosure (hs.lawful.closureScope hscope uses) params ?_)) fun _ hr => ?_
    · exact RelatesIn.bind (hs.execAll body) fun _ _ => hs.lawful.bodyType _
    · exact RelatesTry.liftAnalysis (hs.closureType hint hr.1 hr.2)
  | .arrow _ _ params hint body => by
    simp only [Inference.eval]
    refine RelatesTry.bind (RelatesTry.lift getScope_good) fun _ hscope => ?_
    refine RelatesTry.bind (RelatesTry.lift
      (hs.inClosure hscope params (hs.lawful.settle (hs.eval body)))) fun _ hr => ?_
    exact RelatesTry.liftAnalysis (hs.closureType hint hr.1 hr.2)
  | .select _ subject arms => by
    simp only [Inference.eval]
    refine RelatesTry.bind (hs.lawful.settling (hs.eval subject)) fun _ _ => ?_
    refine RelatesTry.bind (RelatesTry.lift (hs.evalArms arms)) fun results hr => ?_
    refine RelatesTry.bind (RelatesTry.lift (hs.lawful.joinLive ?_)) fun _ _ => ?_
    · exact List.forall_mem_map.mpr fun r hmem => (hr r hmem).2
    · refine RelatesTry.pure (Ty.every_unionOf hs.lawful.node ?_)
      exact List.forall_mem_map.mpr fun r hmem => (hr r hmem).1

theorem AtSite.evalAll (hs : K.AtSite s ask) :
    ∀ es : List Expr, K.RelatesIn (evalAll s es) (fun D => evalAll (s.asking (ask D)) es)
      fun _ => True
  | [] => by
    simp only [Inference.evalAll]
    exact RelatesIn.pure trivial
  | e :: es => by
    simp only [Inference.evalAll]
    exact RelatesIn.bind (hs.lawful.settle (hs.eval e)) fun _ _ => hs.evalAll es

theorem AtSite.evalArgs (hs : K.AtSite s ask) :
    ∀ args : List Argument, K.RelatesIn (evalArgs s args)
      (fun D => evalArgs (s.asking (ask D)) args) fun _ => True
  | [] => by
    simp only [Inference.evalArgs]
    exact RelatesIn.pure trivial
  | .mk _ _ _ value :: rest => by
    simp only [Inference.evalArgs]
    exact RelatesIn.bind (hs.lawful.settle (hs.eval value)) fun _ _ => hs.evalArgs rest

theorem AtSite.compacted (hs : K.AtSite s ask) {items : List Item}
    (hi : ∀ i ∈ items, K.Good i.value) :
    ∀ args : List Argument, K.RelatesIn (compacted s items args)
      (fun D => compacted (s.asking (ask D)) items args) fun is => ∀ i ∈ is, K.Good i.value
  | [] => by
    simp only [Inference.compacted]
    exact RelatesIn.pure hi
  | .mk _ _ _ value :: rest => by
    by_cases hstring : ∃ pos name i, value = .string pos name i
    · obtain ⟨pos, name, i, rfl⟩ := hstring
      simp only [Inference.compacted]
      refine RelatesIn.bind getScope_good fun _ hscope => hs.compacted ?_ rest
      exact Ty.every_withItem (hscope.get hs.lawful name) hi
    · have heq : ∀ (s : Site) (a b c),
          Inference.compacted s items (.mk a b c value :: rest) =
          (do let _ ← settle (Inference.eval s value)
              Inference.compacted s items rest) := by
        intro s a b c
        rw [Inference.compacted]
        intro pos name i h
        exact hstring ⟨pos, name, i, h⟩
      simp only [heq]
      exact RelatesIn.bind (hs.lawful.settle (hs.eval value)) fun _ _ => hs.compacted hi rest

theorem AtSite.gather (hs : K.AtSite s ask) {g : Gathered} (hg : K.GoodGathered g) :
    ∀ es : List Element, K.RelatesIn (gather s g es) (fun D => gather (s.asking (ask D)) g es)
      K.GoodGathered
  | [] => by
    simp only [Inference.gather]
    exact RelatesIn.pure hg
  | .spread _ _ value :: rest => by
    simp only [Inference.gather]
    refine RelatesIn.bind (hs.lawful.settle (hs.eval value)) fun _ ht => ?_
    exact hs.gather (hg.addSpread hs.lawful ht) rest
  | .plain _ doc value :: rest => by
    simp only [Inference.gather]
    refine RelatesIn.bind (hs.lawful.settle (hs.eval value)) fun _ ht => ?_
    refine RelatesIn.bind (RelatesIn.lift (hs.documentedItem doc ht)) fun _ hi => ?_
    exact hs.gather (hg.add hi (Ty.every_leaf hs.lawful.node rfl rfl)) rest
  | .keyed _ doc key value :: rest => by
    simp only [Inference.gather]
    refine RelatesIn.bind (hs.lawful.settle (hs.eval value)) fun _ ht => ?_
    refine RelatesIn.bind (RelatesIn.lift (hs.documentedItem doc ht)) fun _ hi => ?_
    refine RelatesIn.bind (hs.lawful.settle (hs.eval key)) fun _ hk => ?_
    exact hs.gather (hg.addKeyed hs.lawful hi hk) rest

theorem AtSite.evalArms (hs : K.AtSite s ask) :
    ∀ arms : List Arm, K.RelatesIn (evalArms s arms) (fun D => evalArms (s.asking (ask D)) arms)
      fun rs => ∀ r ∈ rs, K.Good r.1 ∧ K.GoodScope r.2
  | [] => by
    simp only [Inference.evalArms]
    exact RelatesIn.pure (by simp)
  | .case _ conditions body :: rest => by
    simp only [Inference.evalArms]
    refine RelatesIn.bind (hs.evalAll conditions) fun _ _ => ?_
    refine RelatesIn.bind getScope_good fun _ hscope => ?_
    refine RelatesIn.bind
      (hs.lawful.inScope hscope (hs.lawful.settle (hs.eval body))) fun _ hfirst => ?_
    refine RelatesIn.bind (hs.evalArms rest) fun _ hrest => ?_
    exact RelatesIn.pure (List.forall_mem_cons.mpr ⟨hfirst, hrest⟩)
  | .fallback _ body :: rest => by
    simp only [Inference.evalArms]
    refine RelatesIn.bind getScope_good fun _ hscope => ?_
    refine RelatesIn.bind
      (hs.lawful.inScope hscope (hs.lawful.settle (hs.eval body))) fun _ hfirst => ?_
    refine RelatesIn.bind (hs.evalArms rest) fun _ hrest => ?_
    exact RelatesIn.pure (List.forall_mem_cons.mpr ⟨hfirst, hrest⟩)

theorem AtSite.assignTo (hs : K.AtSite s ask) {t : Ty} (ht : K.Good t) :
    ∀ e : Expr, K.RelatesTry (assignTo s t e) (fun D => assignTo (s.asking (ask D)) t e)
      fun _ => True
  | .var _ name => by
    simp only [Inference.assignTo]
    exact RelatesTry.ite (fun _ => RelatesTry.pure trivial) fun _ =>
      RelatesTry.lift (hs.lawful.bindVar ht name)
  | .index _ container key => by
    simp only [Inference.assignTo]
    refine RelatesTry.bind (RelatesTry.lift (currentOf_good container (hs.current container)
      (hs.lawful.settle (hs.eval container)))) fun _ hc => ?_
    refine RelatesTry.bind (hs.lawful.settling (hs.eval key)) fun _ hk => ?_
    refine hs.assignTo (Ty.every_writeIndex hs.lawful.node hc ?_ ht) container
    rintro k ⟨⟩
    exact hk
  | .append _ container => by
    simp only [Inference.assignTo]
    refine RelatesTry.bind (RelatesTry.lift (currentOf_good container (hs.current container)
      (hs.lawful.settle (hs.eval container)))) fun _ hc => ?_
    exact hs.assignTo (Ty.every_writeIndex hs.lawful.node hc (by simp) ht) container
  | .array _ elements => by
    simp only [Inference.assignTo]
    exact hs.destructure ht 0 elements
  | .property _ receiver name nullsafe => by
    simp only [Inference.assignTo]
    refine RelatesTry.bind (hs.lawful.settling (hs.eval receiver)) fun _ _ => ?_
    exact RelatesTry.bind (RelatesTry.liftAnalysis (hs.fetchProperty _ name nullsafe)) fun _ _ =>
      RelatesTry.pure trivial
  | .staticProperty pos cls name => by
    simp only [Inference.assignTo]
    exact RelatesTry.bind (hs.lawful.settling (hs.fetchStaticProperty pos cls name)) fun _ _ =>
      RelatesTry.pure trivial
  | .int .. | .float .. | .string .. | .bool .. | .null .. | .constant .. | .binary .. | .unary ..
  | .cast .. | .step .. | .assign .. | .ternary .. | .elvis .. | .instanceOf .. | .clone ..
  | .methodCall .. | .staticCall .. | .classConstant .. | .call .. | .dynamicCall .. | .new ..
  | .closure .. | .arrow .. | .select .. => by
    simp only [Inference.assignTo]
    exact RelatesTry.throw

theorem AtSite.destructure (hs : K.AtSite s ask) {t : Ty} (ht : K.Good t) (position : Int) :
    ∀ es : List Element, K.RelatesTry (destructure s t position es)
      (fun D => destructure (s.asking (ask D)) t position es) fun _ => True
  | [] => by
    simp only [Inference.destructure]
    exact RelatesTry.pure trivial
  | .keyed _ _ key target :: rest => by
    simp only [Inference.destructure]
    refine RelatesTry.bind (hs.lawful.settling (hs.eval key)) fun _ _ => ?_
    refine RelatesTry.bind (hs.assignTo (ht.readIndex hs.lawful.node _) target) fun _ _ => ?_
    exact hs.destructure ht position rest
  | .plain _ _ target :: rest => by
    simp only [Inference.destructure]
    refine RelatesTry.bind (hs.assignTo (ht.readIndex hs.lawful.node _) target) fun _ _ => ?_
    exact hs.destructure ht (position + 1) rest
  | .spread _ _ target :: rest => by
    simp only [Inference.destructure]
    refine RelatesTry.bind (hs.assignTo (ht.readIndex hs.lawful.node _) target) fun _ _ => ?_
    exact hs.destructure ht (position + 1) rest

theorem AtSite.current (hs : K.AtSite s ask) :
    ∀ e : Expr, K.RelatesIn (current s e) (fun D => current (s.asking (ask D)) e)
      fun t => ∀ u ∈ t, K.Good u
  | .var _ name => by
    simp only [Inference.current]
    exact RelatesIn.bind getScope_good fun _ hscope => RelatesIn.pure fun _ hu => hscope.get? hu
  | .index _ container key => by
    simp only [Inference.current]
    refine RelatesIn.bind (currentOf_good container (hs.current container)
      (hs.lawful.settle (hs.eval container))) fun c hc => ?_
    cases c with
    | none => exact RelatesIn.pure (by simp)
    | some outer =>
      refine RelatesIn.bind (hs.lawful.settle (hs.eval key)) fun _ _ => ?_
      exact RelatesIn.pure (hs.lawful.entryOf (hc outer rfl) _)
  | .append _ container => by
    simp only [Inference.current]
    exact RelatesIn.bind (currentOf_good container (hs.current container)
      (hs.lawful.settle (hs.eval container))) fun _ _ => RelatesIn.pure (by simp)
  | .array .. | .property .. | .staticProperty .. | .int .. | .float .. | .string .. | .bool ..
  | .null .. | .constant .. | .binary .. | .unary .. | .cast .. | .step .. | .assign ..
  | .ternary .. | .elvis .. | .instanceOf .. | .clone .. | .methodCall .. | .staticCall ..
  | .classConstant .. | .call .. | .dynamicCall .. | .new .. | .closure .. | .arrow ..
  | .select .. => by
    simp only [Inference.current]
    exact RelatesIn.pure (by simp)

theorem AtSite.exec (hs : K.AtSite s ask) :
    ∀ stmt : Stmt, K.RelatesIn (exec s stmt) (fun D => exec (s.asking (ask D)) stmt) fun _ => True
  | .empty => by
    simp only [Inference.exec]
    exact RelatesIn.pure trivial
  | .block _ body => by
    simp only [Inference.exec]
    exact hs.execAll body
  | .expr _ doc e => by
    simp only [Inference.exec]
    refine RelatesIn.bind (hs.lawful.settle (hs.eval e)) fun _ _ => ?_
    exact RelatesIn.bind (hs.applyDoc doc e) fun _ _ => RelatesIn.pure trivial
  | .conditional _ _ condition yes elseIfs no => by
    simp only [Inference.exec]
    refine RelatesIn.bind (hs.lawful.settle (hs.eval condition)) fun _ _ => ?_
    refine RelatesIn.bind (hs.evalConditions elseIfs) fun _ _ => ?_
    refine RelatesIn.bind (hs.lawful.branch (hs.exec yes)) fun _ hfirst => ?_
    refine RelatesIn.bind (hs.elseIfBranches elseIfs) fun _ hothers => ?_
    refine RelatesIn.bind (hs.lawful.branch (hs.exec no)) fun _ hlast => ?_
    refine hs.lawful.joinLive ?_
    simp only [List.forall_mem_append]
    exact ⟨⟨hfirst, hothers⟩, hlast⟩
  | .whileLoop _ condition body => by
    simp only [Inference.exec]
    refine RelatesIn.bind (hs.lawful.settle (hs.eval condition)) fun _ _ => ?_
    exact RelatesIn.bind (hs.lawful.loopOnce (hs.exec body)) fun _ _ => RelatesIn.pure trivial
  | .doLoop _ body condition => by
    simp only [Inference.exec]
    refine RelatesIn.bind getScope_good fun _ hbefore => ?_
    refine RelatesIn.bind (hs.lawful.inScope hbefore (hs.exec body)) fun r hr => ?_
    obtain ⟨terminated, after⟩ := r
    cases terminated with
    | true => exact RelatesIn.pure trivial
    | false =>
      refine RelatesIn.bind (hs.lawful.inScope hr.2 (hs.lawful.settle (hs.eval condition)))
        fun _ hend => ?_
      refine RelatesIn.bind (hs.lawful.join ?_) fun _ _ => RelatesIn.pure trivial
      simpa using ⟨hbefore, hend.2⟩
  | .forLoop _ start condition step body => by
    simp only [Inference.exec]
    refine RelatesIn.bind (hs.evalAll start) fun _ _ => ?_
    refine RelatesIn.bind (hs.evalAll condition) fun _ _ => ?_
    refine RelatesIn.bind (hs.lawful.loopOnce ?_) fun _ _ => RelatesIn.pure trivial
    refine RelatesIn.bind (hs.exec body) fun _ _ => ?_
    exact RelatesIn.bind (hs.evalAll step) fun _ _ => RelatesIn.pure trivial
  | .foreachLoop _ iterable key value body => by
    simp only [Inference.exec]
    refine RelatesIn.bind (hs.lawful.settle (hs.eval iterable)) fun _ ht => ?_
    obtain ⟨hk, hv⟩ := ht.iterate hs.lawful.node
    refine RelatesIn.bind (hs.lawful.loopOnce ?_) fun _ _ => RelatesIn.pure trivial
    refine RelatesIn.bind (hs.lawful.tolerate ?_) fun _ _ => hs.exec body
    exact RelatesTry.bind (hs.assignKey hk key) fun _ _ => hs.assignTo hv value
  | .switch _ subject cases => by
    simp only [Inference.exec]
    refine RelatesIn.bind (hs.lawful.settle (hs.eval subject)) fun _ _ => ?_
    refine RelatesIn.bind (hs.evalTests cases) fun _ _ => ?_
    refine RelatesIn.bind (hs.enterCases cases) fun _ hlive => ?_
    refine RelatesIn.bind getScope_good fun _ hskipped => hs.lawful.joinLive ?_
    split
    · exact hlive
    · rw [List.forall_mem_append]
      exact ⟨hlive, by simpa using hskipped⟩
  | .guarded _ _ body catches finalizer => by
    simp only [Inference.exec]
    refine RelatesIn.bind (hs.lawful.branch (hs.execAll body)) fun _ hfirst => ?_
    refine RelatesIn.bind (hs.catchBranches catches) fun _ hothers => ?_
    refine RelatesIn.bind (hs.lawful.joinLive ?_) fun _ _ => ?_
    · exact List.forall_mem_append.mpr ⟨hfirst, hothers⟩
    · refine RelatesIn.bind (hs.exec finalizer) fun _ _ => ?_
      split <;> exact RelatesIn.pure trivial
  | .returns _ _ value => by
    simp only [Inference.exec]
    refine RelatesIn.bind (hs.returned value) fun _ ht => ?_
    exact RelatesIn.bind (addReturn_good ht) fun _ _ => RelatesIn.pure trivial
  | .breaks _ => by
    simp only [Inference.exec]
    exact RelatesIn.pure trivial
  | .continues _ => by
    simp only [Inference.exec]
    exact RelatesIn.pure trivial
  | .throws _ value => by
    simp only [Inference.exec]
    exact RelatesIn.bind (hs.lawful.settle (hs.eval value)) fun _ _ => RelatesIn.pure trivial
  | .echo _ values => by
    simp only [Inference.exec]
    exact RelatesIn.bind (hs.evalAll values) fun _ _ => RelatesIn.pure trivial
  | .globals _ names => by
    simp only [Inference.exec]
    exact RelatesIn.bind (RelatesIn.forM names fun n _ => hs.lawful.bindVar hs.unknown n)
      fun _ _ => RelatesIn.pure trivial
  | .statics _ vars => by
    simp only [Inference.exec]
    exact RelatesIn.bind (hs.bindStatics vars) fun _ _ => RelatesIn.pure trivial
  | .includes _ path => by
    simp only [Inference.exec]
    exact RelatesIn.bind (hs.lawful.settle (hs.eval path)) fun _ _ => RelatesIn.pure trivial

theorem AtSite.execAll (hs : K.AtSite s ask) :
    ∀ body : List Stmt, K.RelatesIn (execAll s body) (fun D => execAll (s.asking (ask D)) body)
      fun _ => True
  | [] => by
    simp only [Inference.execAll]
    exact RelatesIn.pure trivial
  | stmt :: rest => by
    simp only [Inference.execAll]
    refine RelatesIn.bind (hs.exec stmt) fun terminated _ => ?_
    cases terminated with
    | true => exact RelatesIn.pure trivial
    | false => exact hs.execAll rest

theorem AtSite.returned (hs : K.AtSite s ask) :
    ∀ value : Option Expr, K.RelatesIn (returned s value)
      (fun D => returned (s.asking (ask D)) value) K.Good
  | none => by
    simp only [Inference.returned]
    exact RelatesIn.pure (Ty.every_leaf hs.lawful.node rfl rfl)
  | some e => by
    simp only [Inference.returned]
    exact hs.lawful.settle (hs.eval e)

theorem AtSite.assignKey (hs : K.AtSite s ask) {t : Ty} (ht : K.Good t) :
    ∀ key : Option Expr, K.RelatesTry (assignKey s t key)
      (fun D => assignKey (s.asking (ask D)) t key) fun _ => True
  | none => by
    simp only [Inference.assignKey]
    exact RelatesTry.pure trivial
  | some e => by
    simp only [Inference.assignKey]
    exact hs.assignTo ht e

theorem AtSite.evalConditions (hs : K.AtSite s ask) :
    ∀ elseIfs : List ElseIf, K.RelatesIn (evalConditions s elseIfs)
      (fun D => evalConditions (s.asking (ask D)) elseIfs) fun _ => True
  | [] => by
    simp only [Inference.evalConditions]
    exact RelatesIn.pure trivial
  | .mk _ condition _ :: rest => by
    simp only [Inference.evalConditions]
    exact RelatesIn.bind (hs.lawful.settle (hs.eval condition)) fun _ _ => hs.evalConditions rest

theorem AtSite.elseIfBranches (hs : K.AtSite s ask) :
    ∀ elseIfs : List ElseIf, K.RelatesIn (elseIfBranches s elseIfs)
      (fun D => elseIfBranches (s.asking (ask D)) elseIfs) fun live => ∀ b ∈ live, K.GoodScope b
  | [] => by
    simp only [Inference.elseIfBranches]
    exact RelatesIn.pure (by simp)
  | .mk _ _ body :: rest => by
    simp only [Inference.elseIfBranches]
    refine RelatesIn.bind (hs.lawful.branch (hs.exec body)) fun _ hfirst => ?_
    refine RelatesIn.bind (hs.elseIfBranches rest) fun _ hrest => ?_
    exact RelatesIn.pure (List.forall_mem_append.mpr ⟨hfirst, hrest⟩)

theorem AtSite.evalTests (hs : K.AtSite s ask) :
    ∀ cases : List Case, K.RelatesIn (evalTests s cases)
      (fun D => evalTests (s.asking (ask D)) cases) fun _ => True
  | [] => by
    simp only [Inference.evalTests]
    exact RelatesIn.pure trivial
  | .test _ value _ :: rest => by
    simp only [Inference.evalTests]
    exact RelatesIn.bind (hs.lawful.settle (hs.eval value)) fun _ _ => hs.evalTests rest
  | .fallback _ _ :: rest => by
    simp only [Inference.evalTests]
    exact hs.evalTests rest

theorem AtSite.enterCases (hs : K.AtSite s ask) :
    ∀ cases : List Case, K.RelatesIn (enterCases s cases)
      (fun D => enterCases (s.asking (ask D)) cases) fun live => ∀ b ∈ live, K.GoodScope b
  | [] => by
    simp only [Inference.enterCases]
    exact RelatesIn.pure (by simp)
  | .test _ _ body :: rest | .fallback _ body :: rest => by
    simp only [Inference.enterCases]
    refine RelatesIn.bind (hs.lawful.branch
      (throughCase_good (hs.runCase body) (hs.runCases rest))) fun _ hfirst => ?_
    refine RelatesIn.bind (hs.enterCases rest) fun _ hrest => ?_
    exact RelatesIn.pure (List.forall_mem_append.mpr ⟨hfirst, hrest⟩)

theorem AtSite.runCases (hs : K.AtSite s ask) :
    ∀ cases : List Case, K.RelatesIn (runCases s cases)
      (fun D => runCases (s.asking (ask D)) cases) fun _ => True
  | [] => by
    simp only [Inference.runCases]
    exact RelatesIn.pure trivial
  | .test _ _ body :: rest | .fallback _ body :: rest => by
    simp only [Inference.runCases]
    exact throughCase_good (hs.runCase body) (hs.runCases rest)

theorem AtSite.runCase (hs : K.AtSite s ask) :
    ∀ body : List Stmt, K.RelatesIn (runCase s body)
      (fun D => runCase (s.asking (ask D)) body) fun _ => True
  | [] => by
    simp only [Inference.runCase]
    exact RelatesIn.pure trivial
  | stmt :: rest => by
    by_cases hbreaks : ∃ pos, stmt = .breaks pos
    · obtain ⟨pos, rfl⟩ := hbreaks
      simp only [Inference.runCase]
      exact RelatesIn.pure trivial
    · have heq : ∀ s : Site, Inference.runCase s (stmt :: rest) =
          (do if ← Inference.exec s stmt then return .terminates
              else Inference.runCase s rest) := by
        intro s
        rw [Inference.runCase]
        intro pos h
        exact hbreaks ⟨pos, h⟩
      simp only [heq]
      refine RelatesIn.bind (hs.exec stmt) fun terminated _ => ?_
      cases terminated with
      | true => exact RelatesIn.pure trivial
      | false => exact hs.runCase rest

theorem AtSite.catchBranches (hs : K.AtSite s ask) :
    ∀ catches : List Catch, K.RelatesIn (catchBranches s catches)
      (fun D => catchBranches (s.asking (ask D)) catches) fun live => ∀ b ∈ live, K.GoodScope b
  | [] => by
    simp only [Inference.catchBranches]
    exact RelatesIn.pure (by simp)
  | .mk _ classes var _ body :: rest => by
    simp only [Inference.catchBranches]
    refine RelatesIn.bind (hs.catchScope classes var) fun _ hscope => ?_
    refine RelatesIn.bind (hs.lawful.branchFrom hscope (hs.execAll body)) fun _ hfirst => ?_
    refine RelatesIn.bind (hs.catchBranches rest) fun _ hrest => ?_
    exact RelatesIn.pure (List.forall_mem_append.mpr ⟨hfirst, hrest⟩)

theorem AtSite.bindStatics (hs : K.AtSite s ask) :
    ∀ vars : List StaticVar, K.RelatesIn (bindStatics s vars)
      (fun D => bindStatics (s.asking (ask D)) vars) fun _ => True
  | [] => by
    simp only [Inference.bindStatics]
    exact RelatesIn.pure trivial
  | .mk name none :: rest => by
    simp only [Inference.bindStatics]
    exact RelatesIn.bind (hs.lawful.bindVar (Ty.every_leaf hs.lawful.node rfl rfl) name)
      fun _ _ => hs.bindStatics rest
  | .mk name (some e) :: rest => by
    simp only [Inference.bindStatics]
    refine RelatesIn.bind (hs.lawful.settle (hs.eval e)) fun _ ht => ?_
    exact RelatesIn.bind (hs.lawful.bindVar (ht.widen hs.lawful.node) name)
      fun _ _ => hs.bindStatics rest

end

end PhpTypes.Inference.Correspondence
