import PhpTypes.Source.Parser.Decl

/-!
# Results of parsers

What the results of a parser have in common when all its tokens have a property, with one rule for
each way to make parsers of others.
-/

namespace PhpTypes

namespace TokenParser

variable {τ α β : Type} {I : τ → Prop}

/-- From tokens with a property on, each result is as described, and the tokens after it have the
property. -/
def Gives (I : τ → Prop) (p : TokenParser τ α) (Q : α → Prop) : Prop :=
  ∀ ts, (∀ t ∈ ts, I t) → ∀ a rest, p ts = some (a, rest) → Q a ∧ ∀ t ∈ rest, I t

namespace Gives

theorem pure {a : α} {Q : α → Prop} (ha : Q a) : Gives I (Pure.pure a) Q := by
  rintro ts hts _ _ ⟨⟩
  exact ⟨ha, hts⟩

theorem bind {p : TokenParser τ α} {next : α → TokenParser τ β} {P : α → Prop} {Q : β → Prop}
    (hp : Gives I p P) (hnext : ∀ a, P a → Gives I (next a) Q) : Gives I (p >>= next) Q := by
  intro ts hts b rest h
  obtain ⟨⟨a, middle⟩, ha, hb⟩ := Option.bind_eq_some_iff.mp h
  obtain ⟨hPa, hmiddle⟩ := hp ts hts a middle ha
  exact hnext a hPa middle hmiddle b rest hb

theorem weaken {p : TokenParser τ α} {P Q : α → Prop} (hp : Gives I p P) (h : ∀ a, P a → Q a) :
    Gives I p Q := by
  intro ts hts a rest hrun
  exact (hp ts hts a rest hrun).imp_left (h a)

theorem any {p : TokenParser τ α} {P : α → Prop} (hp : Gives I p P) : Gives I p fun _ => True :=
  hp.weaken fun _ _ => trivial

/-- A part of which the result is not used. -/
theorem skip {p : TokenParser τ α} {next : TokenParser τ β} {P : α → Prop} {Q : β → Prop}
    (hp : Gives I p P) (hnext : Gives I next Q) : Gives I (do let _ ← p; next) Q :=
  hp.bind fun _ _ => hnext

theorem seqRight {p : TokenParser τ α} {next : TokenParser τ β} {P : α → Prop} {Q : β → Prop}
    (hp : Gives I p P) (hnext : Gives I next Q) : Gives I (p *> next) Q := by
  rw [seqRight_eq_bind]
  exact hp.skip hnext

theorem fail {Q : α → Prop} : Gives I failure Q := by
  rintro ts _ _ _ ⟨⟩

theorem orElse {p q : TokenParser τ α} {Q : α → Prop} (hp : Gives I p Q) (hq : Gives I q Q) :
    Gives I (p <|> q) Q := by
  intro ts hts a rest h
  cases hrun : p ts with
  | none =>
    have hother : q ts = some (a, rest) := by
      change (p ts <|> q ts) = some (a, rest) at h
      simpa [hrun] using h
    exact hq ts hts a rest hother
  | some r =>
    have hfirst : p ts = some (a, rest) := by
      change (p ts <|> q ts) = some (a, rest) at h
      simpa [hrun] using h
    exact hp ts hts a rest hfirst

theorem oneOf (wanted : τ → Bool) : Gives I (TokenParser.oneOf wanted) I := by
  intro ts hts a rest h
  cases ts with
  | nil => cases h
  | cons t ts =>
    rw [List.forall_mem_cons] at hts
    simp only [TokenParser.oneOf] at h
    split at h
    · cases h
      exact hts
    · cases h

theorem accepts (wanted : τ → Bool) : Gives I (TokenParser.accepts wanted) fun _ => True := by
  intro ts hts a rest h
  refine ⟨trivial, ?_⟩
  cases ts with
  | nil =>
    cases h
    exact hts
  | cons t ts =>
    simp only [TokenParser.accepts] at h
    split at h
    · cases h
      exact (List.forall_mem_cons.mp hts).2
    · cases h
      exact hts

theorem manyFrom {p : TokenParser τ α} {Q : α → Prop} (hp : Gives I p Q) (fuel : Nat)
    (ts : List τ) (hts : ∀ t ∈ ts, I t) :
    (∀ a ∈ (manyFrom p fuel ts).1, Q a) ∧ ∀ t ∈ (manyFrom p fuel ts).2, I t := by
  induction fuel generalizing ts with
  | zero => exact ⟨by simp [TokenParser.manyFrom], hts⟩
  | succ fuel ih =>
    rw [TokenParser.manyFrom]
    cases hrun : p ts with
    | none => exact ⟨by simp, hts⟩
    | some r =>
      obtain ⟨ha, hrest⟩ := hp ts hts r.1 r.2 hrun
      obtain ⟨has, hend⟩ := ih r.2 hrest
      exact ⟨List.forall_mem_cons.mpr ⟨ha, has⟩, hend⟩

theorem many {p : TokenParser τ α} {Q : α → Prop} (hp : Gives I p Q) :
    Gives I (many p) fun as => ∀ a ∈ as, Q a := by
  intro ts hts as rest h
  have hall := hp.manyFrom ts.length ts hts
  rw [Option.some.inj h] at hall
  exact hall

theorem separated {p : TokenParser τ α} {separator : TokenParser τ β} {P : β → Prop}
    {Q : α → Prop} (hp : Gives I p Q) (hs : Gives I separator P) :
    Gives I (separated p separator) fun as => ∀ a ∈ as, Q a :=
  hp.bind fun _ hfirst => (hs.seqRight hp).many.bind fun _ hrest =>
    pure (List.forall_mem_cons.mpr ⟨hfirst, hrest⟩)

end Gives

end TokenParser

end PhpTypes
