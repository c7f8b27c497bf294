import PhpTypes.Parsing

/-!
# Runs of parsers

What a parser makes of given tokens, with one equation for each way to make parsers of others. A
repetition is described by the runs of its part, one after the other, until the part takes no more.
-/

namespace PhpTypes.TokenParser

variable {τ α β : Type} {p : TokenParser τ α} {ts mid rest : List τ}

theorem pure_run (a : α) (ts : List τ) : (pure a : TokenParser τ α) ts = some (a, ts) := rfl

theorem bind_run {next : α → TokenParser τ β} {a : α} (h : p ts = some (a, mid)) :
    (p >>= next) ts = next a mid := by
  change (p ts).bind (fun r => next r.1 r.2) = next a mid
  rw [h]
  rfl

theorem bind_run_none {next : α → TokenParser τ β} (h : p ts = none) : (p >>= next) ts = none := by
  change (p ts).bind (fun r => next r.1 r.2) = none
  rw [h]
  rfl

theorem bind_congr_run {q : TokenParser τ α} {next : α → TokenParser τ β} (h : p ts = q ts) :
    (p >>= next) ts = (q >>= next) ts := by
  change (p ts).bind (fun r => next r.1 r.2) = (q ts).bind (fun r => next r.1 r.2)
  rw [h]

theorem bind_eq_some_iff {next : α → TokenParser τ β} {b : β} :
    (p >>= next) ts = some (b, rest) ↔
      ∃ a mid, p ts = some (a, mid) ∧ next a mid = some (b, rest) := by
  constructor
  · intro h
    obtain ⟨⟨a, mid⟩, ha, hb⟩ := Option.bind_eq_some_iff.mp h
    exact ⟨a, mid, ha, hb⟩
  · rintro ⟨a, mid, ha, hb⟩
    rw [bind_run ha, hb]

theorem seqRight_run {next : TokenParser τ β} {a : α} (h : p ts = some (a, mid)) :
    (p *> next) ts = next mid := by
  rw [seqRight_eq_bind, bind_run h]

theorem seqRight_run_none {next : TokenParser τ β} (h : p ts = none) : (p *> next) ts = none := by
  rw [seqRight_eq_bind, bind_run_none h]

theorem seqRight_eq_some_iff {next : TokenParser τ β} {b : β} :
    (p *> next) ts = some (b, rest) ↔
      ∃ a mid, p ts = some (a, mid) ∧ next mid = some (b, rest) := by
  rw [seqRight_eq_bind, bind_eq_some_iff]

theorem orElse_run {q : TokenParser τ α} {a : α} (h : p ts = some (a, rest)) :
    (p <|> q) ts = some (a, rest) := by
  change (p ts <|> q ts) = some (a, rest)
  rw [h]
  rfl

theorem orElse_run_none {q : TokenParser τ α} (h : p ts = none) : (p <|> q) ts = q ts := by
  change (p ts <|> q ts) = q ts
  rw [h]
  rfl

theorem orElse_eq_some {q : TokenParser τ α} {a : α} (h : (p <|> q) ts = some (a, rest)) :
    p ts = some (a, rest) ∨ q ts = some (a, rest) := by
  cases hp : p ts with
  | none =>
    rw [orElse_run_none hp] at h
    exact .inr h
  | some r =>
    rw [orElse_run hp] at h
    exact .inl h

/-! Single tokens. -/

theorem oneOf_run {wanted : τ → Bool} {t : τ} (h : wanted t = true) :
    oneOf wanted (t :: rest) = some (t, rest) := by
  simp [oneOf, h]

theorem oneOf_run_none {wanted : τ → Bool} (h : ∀ t ∈ ts.head?, wanted t = false) :
    oneOf wanted ts = none := by
  cases ts with
  | nil => rfl
  | cons t ts => simp [oneOf, h t rfl]

theorem oneOf_eq_some {wanted : τ → Bool} {t : τ} (h : oneOf wanted ts = some (t, rest)) :
    ts = t :: rest ∧ wanted t = true := by
  cases ts with
  | nil => cases h
  | cons u us =>
    simp only [oneOf] at h
    split at h
    · cases h
      exact ⟨rfl, ‹_›⟩
    · cases h

theorem accepts_run {wanted : τ → Bool} {t : τ} (h : wanted t = true) :
    accepts wanted (t :: rest) = some (true, rest) := by
  simp [accepts, h]

theorem accepts_run_false {wanted : τ → Bool} (h : ∀ t ∈ ts.head?, wanted t = false) :
    accepts wanted ts = some (false, ts) := by
  cases ts with
  | nil => rfl
  | cons t ts => simp [accepts, h t rfl]

/-- A token is taken, or all tokens are left. -/
theorem accepts_eq_some {wanted : τ → Bool} {b : Bool} (h : accepts wanted ts = some (b, rest)) :
    (b = true ∧ ∃ t, ts = t :: rest ∧ wanted t = true) ∨
      (b = false ∧ ts = rest ∧ ∀ t ∈ ts.head?, wanted t = false) := by
  cases ts with
  | nil =>
    cases h
    exact .inr ⟨rfl, rfl, by simp⟩
  | cons t ts =>
    simp only [accepts] at h
    split at h
    · cases h
      exact .inl ⟨rfl, t, rfl, ‹_›⟩
    · rename_i hwanted
      cases h
      exact .inr ⟨rfl, rfl, by simpa using hwanted⟩

/-! Repetition. -/

/-- The results of a parser that is run again and again, until it takes no more. -/
inductive Repeats (p : TokenParser τ α) : List τ → List α → List τ → Prop where
  | stop {ts : List τ} : p ts = none → Repeats p ts [] ts
  | next {ts mid rest : List τ} {a : α} {as : List α} :
    p ts = some (a, mid) → mid.length < ts.length → Repeats p mid as rest →
    Repeats p ts (a :: as) rest

theorem Repeats.manyFrom {as : List α} (h : Repeats p ts as rest) {fuel : Nat}
    (hfuel : ts.length ≤ fuel) : manyFrom p fuel ts = (as, rest) := by
  induction h generalizing fuel with
  | @stop ts hnone =>
    cases fuel with
    | zero => rfl
    | succ fuel => simp [TokenParser.manyFrom, hnone]
  | @next ts mid rest a as hrun hlt _ ih =>
    cases fuel with
    | zero => omega
    | succ fuel =>
      have hle : mid.length ≤ fuel := by omega
      have hrest := ih hle
      simp [TokenParser.manyFrom, hrun, hrest]

theorem Repeats.many {as : List α} (h : Repeats p ts as rest) : many p ts = some (as, rest) := by
  rw [TokenParser.many, h.manyFrom (Nat.le_refl _)]

theorem Repeats.separated {separator : TokenParser τ β} {a : α} {as : List α}
    (hfirst : p ts = some (a, mid)) (h : Repeats (separator *> p) mid as rest) :
    separated p separator ts = some (a :: as, rest) := by
  rw [TokenParser.separated, bind_run hfirst, bind_run h.many, pure_run]

/-- What holds of no runs and is kept by one more run in front holds of a repetition. -/
theorem many_induction {motive : List τ → List α → List τ → Prop} (stop : ∀ ts, motive ts [] ts)
    (next : ∀ ts a mid as rest, p ts = some (a, mid) → motive mid as rest →
      motive ts (a :: as) rest)
    {as : List α} (h : many p ts = some (as, rest)) : motive ts as rest := by
  have hfrom : ∀ fuel ts, motive ts (manyFrom p fuel ts).1 (manyFrom p fuel ts).2 := by
    intro fuel
    induction fuel with
    | zero => exact stop
    | succ fuel ih =>
      intro ts
      rw [manyFrom]
      cases hrun : p ts with
      | none => exact stop ts
      | some r => exact next ts r.1 r.2 _ _ hrun (ih r.2)
  have hall := hfrom ts.length ts
  rw [Option.some.inj h] at hall
  exact hall

theorem complete_eq_some_iff {a : α} : p.complete ts = some a ↔ p ts = some (a, []) := by
  unfold complete
  constructor
  · intro h
    split at h
    · rename_i b hrun
      cases h
      exact hrun
    · cases h
  · intro h
    rw [h]

end PhpTypes.TokenParser
