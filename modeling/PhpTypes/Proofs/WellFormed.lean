import Mathlib.Algebra.Group.Int.Defs
import PhpTypes.Proofs.Runs

/-!
# Types are well formed

A union has two or more members, none of which is a union and all of which are different, and an
integer of known value fits into 64 bits. This holds of every type that is in a scope, in an entry
or in an answer, and of all types inside it.
-/

namespace PhpTypes

/-- The union condition for a single node. -/
def Ty.UnionNode : Ty → Prop
  | .union ts => Ty.Normal ts
  | _ => True

/-- The union condition, an integer that fits into 64 bits, and a float that equals itself. -/
def Ty.SoundNode : Ty → Prop
  | .union ts => Ty.Normal ts
  | .int (some n) => -2 ^ 63 ≤ n ∧ n ≤ 2 ^ 63 - 1
  | .float (some x) => (x == x) = true
  | _ => True

abbrev Ty.WellFormed (t : Ty) : Prop := t.Every Ty.SoundNode

theorem Ty.unionNode_property : Ty.NodeProperty Ty.UnionNode where
  plain := by
    intro t ht
    cases t with
    | union ts => cases ht
    | _ => trivial
  int _ _ := trivial
  float _ := trivial
  union h := h

theorem Ty.soundNode_property : Ty.NodeProperty Ty.SoundNode where
  plain := by
    intro t ht
    cases t with
    | union ts => cases ht
    | int value | float value =>
      cases value with
      | none => trivial
      | some _ => cases ht
    | _ => trivial
  int hl hu := ⟨hl, hu⟩
  float hx := Decimal.beq_self_of_isNaN hx
  union h := h

theorem Ty.wellFormed_object (name : String) (declared : Option String) :
    (Ty.object name declared).WellFormed := by
  intro u hu
  rw [Ty.parts, List.mem_singleton] at hu
  subst hu
  trivial

namespace Inference

open Source

/-- The types of a step are well formed: those of a scope, or that of an entry. -/
def Step.WellFormed : Step → Prop
  | .scoped s => ∀ t ∈ s.bindings.values, t.WellFormed
  | .stored _ e => e.type.WellFormed
  | _ => True

structure WellTyped (p : Program) (h : List Step) (m : Memory) : Prop where
  records : m.RecordsFrom p
  entries : ∀ slot, (m.entry slot).type.WellFormed
  steps : ∀ s ∈ h, s.WellFormed

namespace WellTyped

variable {p : Program} {h : List Step} {m : Memory}

theorem congr {m' : Memory} (hm : WellTyped p h m) (hrecords : m'.RecordsFrom p)
    (hentry : ∀ slot, m'.entry slot = m.entry slot) : WellTyped p h m' :=
  ⟨hrecords, fun slot => by rw [hentry]; exact hm.entries slot, hm.steps⟩

theorem snoc (hm : WellTyped p h m) {s : Step} (hs : s.WellFormed) : WellTyped p (h ++ [s]) m := by
  refine ⟨hm.records, hm.entries, List.forall_mem_append.mpr ⟨hm.steps, ?_⟩⟩
  simpa using hs

theorem store (hm : WellTyped p h m) (slot : Slot) {e : Entry} (he : e.type.WellFormed) :
    WellTyped p (h ++ [.stored slot e]) (m.setEntry slot e) := by
  refine snoc ⟨hm.records.setEntry slot e, fun other => ?_, hm.steps⟩ he
  rcases m.entry_setEntry_cases slot other e with heq | heq
  · rw [heq]
    exact he
  · rw [heq]
    exact hm.entries other

theorem write (hm : WellTyped p h m) (e : Event) : WellTyped p h (m.write e) :=
  hm.congr hm.records (Memory.entry_write m e)

theorem report (hm : WellTyped p h m) (d : Diag) : WellTyped p h (m.report d) :=
  hm.congr hm.records (Memory.entry_report m d)

theorem activate (hm : WellTyped p h m) (key : ConstantKey) : WellTyped p h (m.activate key) :=
  hm.congr hm.records (Memory.entry_activate m key)

theorem deactivate (hm : WellTyped p h m) (key : ConstantKey) : WellTyped p h (m.deactivate key) :=
  hm.congr hm.records (Memory.entry_deactivate m key)

end WellTyped

namespace Correspondence

variable {p : Program}

def wellTyped (p : Program) : Correspondence :=
  invariant (WellTyped p) (fun _ => WellTyped p) Ty.SoundNode fun _ => True

theorem wellTyped_lawful
    (hnatives : ∀ {name s}, p.natives.get? name = some s → s.result.WellFormed) :
    (wellTyped p).Lawful p := by
  refine Stable.lawful ?_ Ty.soundNode_property (fun _ => Ty.wellFormed_object _ _) hnatives
  exact {
    cut := fun h => h
    report := fun d h => h.report d
    write := fun e h => h.write e
    enter := fun h hs => h.snoc hs
    records := fun h => h.records
    meet := fun h hc => h.congr (h.records.meet hc) (Memory.entry_meet _ _) }

private theorem wellTyped_tolerates :
    Tolerates (WellTyped p) (fun _ => WellTyped p) (fun _ => True) fun _ => True where
  raise h _ := h.snoc trivial
  replace h _ := h.snoc trivial
  recover h _ e d := ((h.snoc (s := .failed _ _) trivial).write e).report d

private theorem wellTyped_resolveEntry {faults : Moment → Option Fault} {slot : Slot}
    {label : String} {pos : Pos} {infer : Analysis Ty} {declare : Ty → Analysis Ty}
    (hinner : (wellTyped p).Keeps (findType faults slot label pos infer declare)
      fun t => (wellTyped p).Good (t.getD .unknown)) :
    (wellTyped p).Keeps (resolveEntry faults slot label pos infer declare) (wellTyped p).Good := by
  have hunknown : Ty.WellFormed .unknown := Ty.every_unknown Ty.soundNode_property
  refine keeps_invariant.mpr fun h m hm _ => Ends.resolveEntry hm (fun t hs => ?_) (fun _ => ?_)
    (fun _ => ?_) (fun h m hm => keeps_invariant.mp hinner h m hm fun _ _ => trivial)
    (fun h m t c hm ht => ?_) (fun h m e hm => hm.write e) fun e h m hm => hm.snoc trivial
  · have ht := hm.entries slot
    rwa [Entry.type, hs] at ht
  · refine ⟨hunknown, WellTyped.store ?_ slot hunknown⟩
    exact (hm.write (.cycle label)).snoc trivial
  · refine WellTyped.snoc ?_ trivial
    exact (hm.write (.resolving label)).store slot hunknown
  · have hdone : WellTyped p (h ++ [.completed (.body slot)]) m := hm.snoc trivial
    exact hdone.store slot (e := ⟨.resolved t, c⟩) ht

private theorem wellTyped_unlessActive {key : ConstantKey} {x : Analysis Ty}
    (hinner : (wellTyped p).Keeps x (wellTyped p).Good) :
    (wellTyped p).Keeps (unlessActive key x) (wellTyped p).Good := by
  refine keeps_invariant.mpr fun h m hm _ => Ends.unlessActive (fun _ => ?_) (fun _ => ?_)
    (fun h m hm => keeps_invariant.mp hinner h m hm fun _ _ => trivial)
    (fun h m hm => (hm.deactivate key).snoc trivial) fun e h m hm =>
      (hm.deactivate key).snoc trivial
  · exact ⟨Ty.every_unknown Ty.soundNode_property, hm.snoc trivial⟩
  · exact (hm.activate key).snoc trivial

private theorem wellTyped_same {h : List Step} {m n : Memory} (hmn : (wellTyped p).holds h m n) :
    n = m :=
  hmn.1

private theorem wellTyped_unanswered {α : Type} {answer : α} {Q : α → Prop} (ha : Q answer) :
    (wellTyped p).Keeps (unanswered answer) Q := by
  refine keeps_invariant.mpr fun h m hm _ => ⟨?_, by rintro _ ⟨⟩⟩
  rintro _ ⟨⟩
  exact ⟨hm.snoc trivial, ha⟩

theorem wellTyped_requests (hK : (wellTyped p).Lawful p) (M : Machine) (d : Nat) :
    (wellTyped p).RelatesRequests (M.requests p d) fun _ => M.requests p d := by
  have hunknown : (wellTyped p).Good .unknown := Ty.every_unknown Ty.soundNode_property
  induction d generalizing M with
  | zero =>
    refine ⟨fun _ _ => ?_, fun _ => ?_, fun _ _ => ?_, fun _ => ?_⟩
    · exact wellTyped_unanswered hunknown
    · exact wellTyped_unanswered hunknown
    · exact wellTyped_unanswered hunknown
    · refine wellTyped_unanswered ?_
      rintro u ⟨⟩
      exact hunknown
  | succ d ih =>
    exact (wellTyped_tolerates.answering (fun _ _ _ => trivial) hK (ih M.inner)
      wellTyped_resolveEntry wellTyped_unlessActive).requests hK

end Correspondence

theorem WellTyped.perform {M : Machine} {p : Program} {h : List Step} {m : Memory}
    (hm : WellTyped p h m)
    (hnatives : ∀ {name s}, p.natives.get? name = some s → s.result.WellFormed) (q : Query) :
    Correspondence.Ends (WellTyped p) (fun _ => WellTyped p) (fun t => ∀ u ∈ t, u.WellFormed) h
      ((q.performOn M p).run m) := by
  have hK := Correspondence.wellTyped_lawful hnatives
  have hkeeps := hK.perform Correspondence.wellTyped_same
    (fun m => Correspondence.wellTyped_requests hK M _) q
  exact Correspondence.keeps_invariant.mp hkeeps h m hm fun _ _ => trivial

theorem runOn_wellTyped {M : Machine} {p : Program}
    (hnatives : ∀ {name s}, p.natives.get? name = some s → s.result.WellFormed)
    (cs : List Command) : WellTyped p (runOn M p cs).steps (runOn M p cs).memory := by
  refine runOn_keeps (fun m => ?_) (fun h m q hm => (hm.perform hnatives q).kept) cs
  refine ⟨m.recordsFrom_reset p, fun slot => ?_, by simp⟩
  cases slot <;> exact Ty.every_unknown Ty.soundNode_property

/-- A program whose native functions are given by type expressions. -/
def Program.declaring (index : Index) (natives : List Natives.Declared) : Program :=
  ⟨index, .addAll .empty natives⟩

theorem Program.declaring_wellFormed (index : Index) (natives : List Natives.Declared)
    {name : String} {s : Signature}
    (h : (Program.declaring index natives).natives.get? name = some s) : s.result.WellFormed :=
  Doc.every_native Ty.soundNode_property h

/-- In every run, with native functions that are given by type expressions, the types in scopes, in
entries and in answers are well formed, whatever faults arise. So are the unions of every type that
is read from a text or a hint, given that class names stand for objects. -/
theorem run_types_wellFormed (M : Machine) (index : Index) (natives : List Natives.Declared)
    (cs : List Command) :
    (∀ s, .scoped s ∈ (runOn M (.declaring index natives) cs).steps →
      ∀ t ∈ s.bindings.values, t.WellFormed) ∧
    (∀ slot e t, .stored slot e ∈ (runOn M (.declaring index natives) cs).steps →
      e.state = .resolved t → t.WellFormed) ∧
    (∀ slot t, ((runOn M (.declaring index natives) cs).memory.entry slot).state = .resolved t →
      t.WellFormed) ∧
    (∀ (q : Query) t, ((q.performOn M (.declaring index natives)).run
      (runOn M (.declaring index natives) cs).memory).result = .ok (some t) → t.WellFormed) ∧
    ∀ (σ : Type) (r : Doc.Reader (StateM σ)),
      (∀ name s, ∃ n d, ((r.resolve name).run s).1 = .object n d) →
      (∀ text s, ((Doc.typeOfText r text).run s).1.Every Ty.UnionNode) ∧
      ∀ hint s, ((Doc.typeOfHint r hint).run s).1.Every Ty.UnionNode := by
  have hnatives := @Program.declaring_wellFormed index natives
  have hrun := runOn_wellTyped (M := M) hnatives cs
  refine ⟨fun s hs => hrun.steps _ hs, fun slot e t he ht => ?_, fun slot t ht => ?_,
    fun q t ht => ?_, fun σ r hr => ?_⟩
  · have hstored := hrun.steps _ he
    rwa [Step.WellFormed, Entry.type, ht] at hstored
  · have hentry := hrun.entries slot
    rwa [Entry.type, ht] at hentry
  · exact ((hrun.perform hnatives q).ok _ ht).2 t rfl
  · have hobject : ∀ name,
        (Doc.Guarantee.state σ).sat (r.resolve name) (Ty.Every Ty.UnionNode) := by
      intro name s u hu
      obtain ⟨n, d, hnd⟩ := hr name s
      rw [hnd, Ty.parts, List.mem_singleton] at hu
      subst hu
      trivial
    exact ⟨fun text => Doc.Guarantee.typeOfText Ty.unionNode_property hobject text,
      fun hint => Doc.Guarantee.typeOfHint Ty.unionNode_property hobject hint⟩

/-- Class names stand for objects of which nothing is known. -/
def objectReader : Doc.Reader (StateM Unit) := ⟨none, fun name => return .object name none⟩

theorem objectReader_unions :
    (∀ name s, ∃ n d, ((objectReader.resolve name).run s).1 = .object n d) ∧
    ∀ text s, ((Doc.typeOfText objectReader text).run s).1.Every Ty.UnionNode := by
  have hobject : ∀ name s, ∃ n d, ((objectReader.resolve name).run s).1 = .object n d :=
    fun name _ => ⟨name, none, rfl⟩
  have hunions := (run_types_wellFormed .perfect .empty [] []).2.2.2.2 Unit objectReader hobject
  exact ⟨hobject, hunions.1⟩

end Inference

end PhpTypes
