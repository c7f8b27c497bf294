import PhpTypes.Inference.Evaluate
import PhpTypes.Proofs.Correspondence

/-!
# Postconditions of evaluations

What an evaluation ensures that starts in a given frame, with a rule for each operation on frames.
An evaluation may also stop the analysis; whether it can is part of the statement.
-/

namespace PhpTypes.Inference

variable {α β : Type} {stops : Prop} {f : Frame}

/-- From the frame on, in any memory, the evaluation ends with a value and a frame as described, or
it stops the analysis, if it can stop. -/
def Ensures (stops : Prop) (x : Eval α) (f : Frame) (Q : α → Frame → Prop) : Prop :=
  ∀ m, match ((x.run f).run m).result with
    | .ok r => Q r.1 r.2
    | .error _ => stops

namespace Ensures

theorem pure {a : α} {Q : α → Frame → Prop} (h : Q a f) : Ensures stops (Pure.pure a) f Q :=
  fun _ => h

theorem bind {x : Eval α} {next : α → Eval β} {Q : β → Frame → Prop}
    (h : Ensures stops x f fun a g => Ensures stops (next a) g Q) :
    Ensures stops (x >>= next) f Q := by
  intro m
  have hx := h m
  change match ((x.run f >>= fun r => (next r.1).run r.2).run m).result with
    | .ok r => Q r.1 r.2
    | .error _ => stops
  cases hr : ((x.run f).run m).result with
  | ok r =>
    rw [hr] at hx
    rw [Analysis.run_bind_ok hr]
    exact hx _
  | error e =>
    rw [hr] at hx
    rw [Analysis.run_bind_error hr]
    exact hx

theorem weaken {x : Eval α} {P Q : α → Frame → Prop} (h : Ensures stops x f P)
    (hPQ : ∀ a g, P a g → Q a g) : Ensures stops x f Q := by
  intro m
  have hx := h m
  cases hr : ((x.run f).run m).result with
  | ok r =>
    rw [hr] at hx
    exact hPQ r.1 r.2 hx
  | error e =>
    rw [hr] at hx
    exact hx

theorem andThen {x : Eval α} {next : α → Eval β} {P : α → Frame → Prop} {Q : β → Frame → Prop}
    (h : Ensures stops x f P) (hnext : ∀ a g, P a g → Ensures stops (next a) g Q) :
    Ensures stops (x >>= next) f Q :=
  bind (h.weaken hnext)

theorem ok {x : Eval α} {Q : α → Frame → Prop} {m : Memory} {a : α} {g : Frame}
    (h : Ensures stops x f Q) (hr : ((x.run f).run m).result = .ok (a, g)) : Q a g := by
  have hx := h m
  rw [hr] at hx
  exact hx

theorem exists_ok {x : Eval α} {Q : α → Frame → Prop} (h : Ensures False x f Q) (m : Memory) :
    ∃ a g, ((x.run f).run m).result = .ok (a, g) ∧ Q a g := by
  have hx := h m
  cases hr : ((x.run f).run m).result with
  | ok r =>
    rw [hr] at hx
    exact ⟨r.1, r.2, rfl, hx⟩
  | error e =>
    rw [hr] at hx
    exact hx.elim

/-- Nothing is said of an evaluation that may stop. -/
theorem any (x : Eval α) : Ensures True x f fun _ _ => True := by
  intro m
  split <;> trivial

/-- What is asked from outside leaves the frame as it is. -/
theorem lift {x : Analysis α} {Q : α → Frame → Prop} (h : ∀ a, Q a f) :
    Ensures True (liftM x) f Q := by
  intro m
  change match ((x >>= fun a => Pure.pure (a, f)).run m).result with
    | .ok r => Q r.1 r.2
    | .error _ => True
  cases hr : (x.run m).result with
  | ok a =>
    rw [Analysis.run_bind_ok hr]
    exact h a
  | error e =>
    rw [Analysis.run_bind_error hr]
    trivial

/-! The operations on frames. -/

theorem getScope {Q : Scope → Frame → Prop} (h : Q f.scope f) :
    Ensures stops getScope f Q :=
  fun _ => h

theorem setScope {s : Scope} {Q : Unit → Frame → Prop} (h : Q () { f with scope := s }) :
    Ensures stops (setScope s) f Q :=
  fun _ => h

theorem bindVar {name : String} {t : Ty} {Q : Unit → Frame → Prop}
    (h : Q () { f with scope := f.scope.set name t }) : Ensures stops (bindVar name t) f Q :=
  bind (getScope (setScope h))

theorem unbindVar {name : String} {Q : Unit → Frame → Prop}
    (h : Q () { f with scope := f.scope.unset name }) : Ensures stops (unbindVar name) f Q :=
  bind (getScope (setScope h))

theorem addReturn {t : Ty} {Q : Unit → Frame → Prop}
    (h : Q () { f with returns := f.returns ++ [t] }) : Ensures stops (addReturn t) f Q :=
  fun _ => h

theorem inScope {s : Scope} {x : Eval α} {Q : α × Scope → Frame → Prop}
    (h : Ensures stops x { f with scope := s }
      fun a g => Q (a, g.scope) { g with scope := f.scope }) :
    Ensures stops (inScope s x) f Q := by
  apply bind
  apply getScope
  apply bind
  apply setScope
  apply bind
  apply h.weaken
  intro a g hg
  apply bind
  apply getScope
  apply bind
  apply setScope
  exact pure hg

theorem inFrame {s : Scope} {x : Eval α} {Q : α → Frame → Prop}
    (h : Ensures stops x ⟨s, []⟩ fun a _ => Q a f) : Ensures stops (inFrame s x) f Q := by
  have hset : ∀ {g h : Frame} {Q : PUnit → Frame → Prop}, Q ⟨⟩ g → Ensures stops (set g) h Q :=
    fun hQ _ => hQ
  have htake : ∀ {g : Frame} {Q : PUnit → Frame → Prop}, Q ⟨⟩ g →
      Ensures stops (liftM (take (.scoped s)) : Eval Unit) g Q := fun hQ _ => hQ
  have hget : Ensures stops get f fun a g => a = f ∧ g = f := fun _ => ⟨rfl, rfl⟩
  apply bind
  apply hget.weaken
  rintro _ _ ⟨rfl, rfl⟩
  apply bind
  apply hset
  apply bind
  apply htake
  apply bind
  apply h.weaken
  intro a g hg
  apply bind
  apply hset
  exact pure hg

theorem branchFrom {s : Scope} {x : Eval Bool} {Q : List Scope → Frame → Prop}
    (h : Ensures stops x { f with scope := s }
      fun b g => Q (if b then [] else [g.scope]) { g with scope := f.scope }) :
    Ensures stops (branchFrom s x) f Q := by
  apply bind
  apply inScope
  apply h.weaken
  intro b g hg
  exact pure hg

theorem branch {x : Eval Bool} {Q : List Scope → Frame → Prop}
    (h : Ensures stops x f
      fun b g => Q (if b then [] else [g.scope]) { g with scope := f.scope }) :
    Ensures stops (branch x) f Q :=
  bind (getScope (branchFrom h))

theorem join {branches : List Scope} {Q : Unit → Frame → Prop}
    (h : Q () { f with scope := f.scope.merge branches }) : Ensures stops (join branches) f Q :=
  bind (getScope (setScope h))

theorem joinLive {live : List Scope} {Q : Bool → Frame → Prop} (hdead : live = [] → Q true f)
    (hlive : live ≠ [] → Q false { f with scope := f.scope.merge live }) :
    Ensures stops (joinLive live) f Q := by
  cases live with
  | nil => exact pure (hdead rfl)
  | cons b bs => exact bind (join (pure (hlive (List.cons_ne_nil b bs))))

theorem loopOnce {body : Eval Bool} {Q : Unit → Frame → Prop}
    (h : Ensures stops body f
      fun _ g => Q () { g with scope := f.scope.merge [f.scope, g.scope] }) :
    Ensures stops (loopOnce body) f Q := by
  apply bind
  apply getScope
  apply bind
  apply inScope
  apply h.weaken
  intro _ g hg
  exact join hg

theorem bodyType {terminated : Bool} {Q : Ty → Frame → Prop}
    (h : Q (Ty.unionOf (if terminated then f.returns else f.returns ++ [.null])) f) :
    Ensures stops (bodyType terminated) f Q :=
  fun _ => h

theorem warnOf {failure : Failure} {Q : Unit → Frame → Prop} (h : Q () f) :
    Ensures stops (warnOf failure) f Q :=
  fun _ => h

/-- An attempt that fails has the unknown type. -/
theorem settle {x : Attempt Ty} {Q : Ty → Frame → Prop}
    (h : Ensures stops x.run f fun r g => match r with
      | .ok t => Q t g
      | .error _ => Q .unknown g) : Ensures stops (settle x) f Q := by
  apply bind
  apply h.weaken
  intro r g hr
  cases r with
  | ok t => exact pure hr
  | error e =>
    apply bind
    apply warnOf
    exact fun _ => hr

theorem tolerate {x : Attempt Unit} {Q : Unit → Frame → Prop}
    (h : Ensures stops x.run f fun _ g => Q () g) : Ensures stops (tolerate x) f Q := by
  apply bind
  apply h.weaken
  intro r g hr
  cases r with
  | ok u => exact pure hr
  | error e => exact warnOf hr

/-! Attempts. -/

theorem tryBind {x : Attempt α} {next : α → Attempt β} {Q : Except Failure β → Frame → Prop}
    (h : Ensures stops x.run f fun r g => match r with
      | .ok a => Ensures stops (next a).run g Q
      | .error e => Q (.error e) g) : Ensures stops (x >>= next).run f Q := by
  apply bind
  apply h.weaken
  intro r g hr
  cases r with
  | ok a => exact hr
  | error e => exact pure hr

theorem tryLift {x : Eval α} {Q : Except Failure α → Frame → Prop}
    (h : Ensures stops x f fun a g => Q (.ok a) g) :
    Ensures stops (liftM x : Attempt α).run f Q := by
  change Ensures stops (x >>= fun a => Pure.pure (.ok a)) f Q
  apply bind
  apply h.weaken
  intro a g ha
  exact pure ha

end Ensures

end PhpTypes.Inference
