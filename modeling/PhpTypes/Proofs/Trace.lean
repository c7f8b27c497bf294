import Mathlib.Data.List.Induction
import Mathlib.Data.List.Perm.Subperm
import PhpTypes.Inference.Request

/-!
# Traces

The steps of an analysis tell the state of every entry and what is under evaluation at every moment.
A trace is legal if entries only advance, if nothing is evaluated that is under evaluation, if no
body is evaluated twice, and if every request is answered.
-/

namespace PhpTypes.Inference

open Source

/-- An element of a list is the last one or stands before it. -/
theorem eq_append_cons_of_snoc {α : Type} {as before after : List α} {a b : α}
    (h : as ++ [b] = before ++ a :: after) :
    before = as ∧ a = b ∧ after = [] ∨ ∃ rest, after = rest ++ [b] ∧ as = before ++ a :: rest := by
  rcases List.eq_nil_or_concat after with rfl | ⟨rest, c, rfl⟩
  · obtain ⟨rfl, hb⟩ := List.append_inj' h rfl
    cases hb
    exact .inl ⟨rfl, rfl, rfl⟩
  · rw [List.concat_eq_append, ← List.cons_append, ← List.append_assoc] at h
    obtain ⟨rfl, hb⟩ := List.append_inj' h rfl
    cases hb
    exact .inr ⟨rest, List.concat_eq_append, rfl⟩

/-- The state of an entry after a step. -/
def Step.change (slot : Slot) (state : EntryState) : Step → EntryState
  | .stored other e => if other = slot then e.state else state
  | _ => state

/-- What is under evaluation after a step, innermost first. -/
def Step.nest (stack : List Activity) : Step → List Activity
  | .started a => a :: stack
  | .completed a => stack.erase a
  | .escaped a => stack.erase a
  | _ => stack

def stateAfter (slot : Slot) (h : List Step) : EntryState := h.foldl (Step.change slot) .unrequested

def stackAfter (h : List Step) : List Activity := h.foldl Step.nest []

@[simp]
theorem stateAfter_snoc (slot : Slot) (h : List Step) (s : Step) :
    stateAfter slot (h ++ [s]) = s.change slot (stateAfter slot h) := by
  simp [stateAfter]

@[simp]
theorem stackAfter_snoc (h : List Step) (s : Step) :
    stackAfter (h ++ [s]) = s.nest (stackAfter h) := by
  simp [stackAfter]

/-- Entries are first unrequested, then in progress, then resolved, and keep the type that they are
resolved with. -/
inductive Advances : EntryState → EntryState → Prop where
  | stays (s : EntryState) : Advances s s
  | starts : Advances .unrequested .inProgress
  | ends (t : Ty) : Advances .inProgress (.resolved t)

theorem Advances.of_resolved {t : Ty} {s : EntryState} (h : Advances (.resolved t) s) :
    s = .resolved t := by
  cases h
  rfl

/-- The steps that may follow a trace. -/
def Allowed (h : List Step) : Step → Prop
  | .stored slot e => Advances (stateAfter slot h) e.state
  | .started a => a ∉ stackAfter h ∧ ∀ slot, a = .body slot → Step.started a ∉ h
  | .exhausted => False
  | _ => True

def Legal (h : List Step) : Prop :=
  ∀ before s after, h = before ++ s :: after → Allowed before s

theorem legal_nil : Legal [] := by
  intro before s after h
  simp at h

theorem Legal.snoc {h : List Step} (hl : Legal h) {s : Step} (hs : Allowed h s) :
    Legal (h ++ [s]) := by
  intro before s' after heq
  obtain ⟨rfl, rfl, -⟩ | ⟨rest, -, rfl⟩ := eq_append_cons_of_snoc heq
  · exact hs
  · exact hl before s' rest rfl

theorem Legal.before {h after : List Step} (hl : Legal (h ++ after)) : Legal h := by
  intro before s rest heq
  exact hl before s (rest ++ after) (by simp [heq])

theorem Legal.advances {h : List Step} (hl : Legal h) {before after : List Step} {s : Step}
    (heq : h = before ++ s :: after) (slot : Slot) :
    Advances (stateAfter slot before) (stateAfter slot (before ++ [s])) := by
  rw [stateAfter_snoc]
  have hs := hl before s after heq
  cases s with
  | stored other e =>
    by_cases ho : other = slot
    · subst ho
      rw [Step.change, if_pos rfl]
      exact hs
    · simpa [Step.change, ho] using Advances.stays (stateAfter slot before)
  | _ => exact .stays _

theorem Legal.not_exhausted {h : List Step} (hl : Legal h) : Step.exhausted ∉ h := by
  intro hmem
  obtain ⟨before, after, rfl⟩ := List.append_of_mem hmem
  exact hl before .exhausted after rfl

/-- Once an entry is resolved it stays so with its type. -/
theorem Legal.resolved {h later : List Step} (hl : Legal (h ++ later)) {slot : Slot} {t : Ty}
    (ht : stateAfter slot h = .resolved t) : stateAfter slot (h ++ later) = .resolved t := by
  induction later generalizing h with
  | nil => simpa using ht
  | cons s later ih =>
    have hstep := hl.advances rfl slot
    rw [ht] at hstep
    rw [List.append_cons] at hl ⊢
    exact ih hl hstep.of_resolved

/-- The body whose evaluation starts with a step. -/
def Step.startedBody? : Step → Option Slot
  | .started (.body slot) => some slot
  | _ => none

theorem Step.startedBody?_eq_some {s : Step} {slot : Slot} :
    s.startedBody? = some slot ↔ s = .started (.body slot) := by
  cases s with
  | started a => cases a <;> simp [startedBody?]
  | _ => simp [startedBody?]

theorem Legal.startedBodies_nodup {h : List Step} (hl : Legal h) :
    (h.filterMap Step.startedBody?).Nodup := by
  induction h using List.reverseRecOn with
  | nil => simp
  | append_singleton h s ih =>
    have hs := hl h s [] rfl
    have hprev := ih hl.before
    rw [List.filterMap_append]
    cases hb : s.startedBody? with
    | none => simpa [hb] using hprev
    | some slot =>
      obtain rfl := Step.startedBody?_eq_some.mp hb
      have hnew : slot ∉ h.filterMap Step.startedBody? := by
        intro hmem
        obtain ⟨s', hs', hslot⟩ := List.mem_filterMap.mp hmem
        rw [Step.startedBody?_eq_some.mp hslot] at hs'
        exact hs.2 slot rfl hs'
      rw [List.nodup_append]
      refine ⟨hprev, by simp [hb], ?_⟩
      intro a ha b hmem heq
      simp only [List.filterMap_cons, hb, List.filterMap_nil, List.mem_singleton] at hmem
      exact hnew (hmem ▸ heq ▸ ha)

theorem Legal.stack_nodup {h : List Step} (hl : Legal h) : (stackAfter h).Nodup := by
  induction h using List.reverseRecOn with
  | nil => simp [stackAfter]
  | append_singleton h s ih =>
    have hs := hl h s [] rfl
    have hstack := ih hl.before
    rw [stackAfter_snoc]
    cases s with
    | started a => exact List.nodup_cons.mpr ⟨hs.1, hstack⟩
    | completed a => exact hstack.erase a
    | escaped a => exact hstack.erase a
    | _ => exact hstack

end PhpTypes.Inference
