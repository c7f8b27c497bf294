import PhpTypes.Proofs.Runs

/-!
# How deeply requests are nested

The depth to which requests can be nested is only a bound. An analysis that does not reach it has
the same result and leaves the same memory when requests can be nested more deeply.
-/

namespace PhpTypes.Inference

open Source

namespace Correspondence

variable {p : Program}

/-- Analyses that start in the same memory, as long as the first one does not reach its depth. -/
def deepening (p : Program) : Correspondence :=
  invariant (fun _ m => m.RecordsFrom p) (fun _ _ m => m.RecordsFrom p) (fun _ => True)
    fun s => s ≠ .exhausted

private theorem deepening_lawful : (deepening p).Lawful p := by
  refine Stable.lawful ?_ .trivial
    (fun _ _ _ => trivial) fun _ _ _ => trivial
  exact {
    cut := fun h => h
    report := fun _ h => h
    write := fun _ h => h
    enter := fun h _ => h
    records := fun h => h
    meet := fun h hc => h.meet hc }

private theorem deepening_tolerates : Tolerates (fun _ m => m.RecordsFrom p)
    (fun _ _ m => m.RecordsFrom p) (fun s => s ≠ .exhausted) fun _ => True where
  raise h _ := h
  replace h _ := h
  recover h _ _ _ := h

private theorem deepening_good (t : Ty) : (deepening p).Good t := fun _ _ => trivial

private theorem deepening_resolveEntry {faults : Moment → Option Fault} {slot : Slot}
    {label : String}
    {pos : Pos} {infer : Analysis Ty} {infer' : Nat → Analysis Ty} {declare : Ty → Analysis Ty}
    (hinner : (deepening p).Relates (findType faults slot label pos infer declare)
      (fun D => findType faults slot label pos (infer' D) declare)
      fun t => (deepening p).Good (t.getD .unknown)) :
    (deepening p).Relates (resolveEntry faults slot label pos infer declare)
      (fun D => resolveEntry faults slot label pos (infer' D) declare) (deepening p).Good := by
  rintro h m n ⟨rfl, hm⟩ hleft
  cases hs : (n.entry slot).state with
  | resolved t =>
    rw [resolveEntry_run_resolved hs]
    exact ⟨_, ⟨0, fun D _ => resolveEntry_run_resolved hs⟩, rfl, fun _ _ => trivial,
      fun t _ => ⟨⟨rfl, hm⟩, deepening_good t⟩, by rintro _ ⟨⟩⟩
  | inProgress =>
    rw [resolveEntry_run_inProgress hs]
    exact ⟨_, ⟨0, fun D _ => resolveEntry_run_inProgress hs⟩, rfl, fun _ _ => trivial,
      fun t _ => ⟨⟨rfl, Memory.RecordsFrom.setEntry (m := n.write _) hm slot _⟩, deepening_good t⟩,
      by rintro _ ⟨⟩⟩
  | unrequested =>
    have hstart : (n.takeUp slot label).RecordsFrom p :=
      Memory.RecordsFrom.setEntry (m := n.write _) hm slot _
    have hrel := hinner h (n.takeUp slot label) _ ⟨rfl, hstart⟩
    generalize ho : (findType faults slot label pos infer declare).run (n.takeUp slot label) = o
      at hrel
    cases hr : o.result with
    | ok t =>
      rw [resolveEntry_run_ok hs ho hr] at hleft ⊢
      obtain ⟨o', ⟨d, hd⟩, hagree⟩ := hrel fun s hmem => hleft s (by simp [hmem])
      obtain ⟨⟨hsame, hend⟩, -⟩ := hagree.ok t hr
      refine ⟨_, ⟨d, fun D hD => resolveEntry_run_ok hs (hd D hD) (hagree.result.trans hr)⟩, rfl,
        fun _ _ => trivial, fun t' _ => ⟨⟨by rw [hsame], ?_⟩, deepening_good t'⟩, by rintro _ ⟨⟩⟩
      cases t <;> exact Memory.RecordsFrom.setEntry hend slot _
    | error e =>
      rw [resolveEntry_run_error hs ho hr] at hleft ⊢
      obtain ⟨o', ⟨d, hd⟩, hagree⟩ := hrel fun s hmem => hleft s (by simp [hmem])
      exact ⟨_, ⟨d, fun D hD => resolveEntry_run_error hs (hd D hD) (hagree.result.trans hr)⟩, rfl,
        fun _ _ => trivial, by rintro _ ⟨⟩, fun _ _ => hagree.error e hr⟩

private theorem deepening_unlessActive {key : ConstantKey} {x : Analysis Ty} {y : Nat → Analysis Ty}
    (hx : (deepening p).Relates x y (deepening p).Good) :
    (deepening p).Relates (unlessActive key x) (fun D => unlessActive key (y D))
      (deepening p).Good := by
  rintro h m n ⟨rfl, hm⟩ hleft
  by_cases hk : key ∈ n.active
  · rw [unlessActive_run_active hk]
    exact ⟨_, ⟨0, fun D _ => unlessActive_run_active hk⟩, rfl, fun _ _ => trivial,
      fun t _ => ⟨⟨rfl, hm⟩, deepening_good t⟩, by rintro _ ⟨⟩⟩
  · have hrel := hx h (n.activate key) _ ⟨rfl, hm⟩
    simp only [unlessActive_run_new hk] at hleft ⊢
    generalize ho : x.run (n.activate key) = o at hrel
    cases hr : o.result with
    | ok t =>
      rw [whileActive_run_ok ho hr] at hleft ⊢
      obtain ⟨o', ⟨d, hd⟩, hagree⟩ := hrel fun s hmem => hleft s (by simp [hmem])
      obtain ⟨⟨hsame, hend⟩, -⟩ := hagree.ok t hr
      exact ⟨_, ⟨d, fun D hD => whileActive_run_ok (hd D hD) (hagree.result.trans hr)⟩, rfl,
        fun _ _ => trivial, fun t' _ => ⟨⟨by rw [hsame], hend⟩, deepening_good t'⟩, by rintro _ ⟨⟩⟩
    | error e =>
      rw [whileActive_run_error ho hr] at hleft ⊢
      obtain ⟨o', ⟨d, hd⟩, hagree⟩ := hrel fun s hmem => hleft s (by simp [hmem])
      obtain ⟨hsame, hend⟩ := hagree.error e hr
      exact ⟨_, ⟨d, fun D hD => whileActive_run_error (hd D hD) (hagree.result.trans hr)⟩, rfl,
        fun _ _ => trivial, by rintro _ ⟨⟩, fun _ _ => ⟨by rw [hsame], hend⟩⟩

/-- What reaches its depth is not followed. -/
theorem deepening_unanswered {α : Type} {answer : α} {y : Nat → Analysis α} {Q : α → Prop} :
    (deepening p).Relates (unanswered answer) y Q := by
  intro h m n _ hleft
  exact absurd rfl (hleft .exhausted (by simp [unanswered_run]))

private theorem deepening_requests (M : Machine) (d : Nat) :
    (deepening p).RelatesRequests (M.requests p d) fun D => M.requests p D := by
  induction d generalizing M with
  | zero =>
    exact ⟨fun _ _ => deepening_unanswered, fun _ => deepening_unanswered,
      fun _ _ => deepening_unanswered, fun _ => deepening_unanswered⟩
  | succ d ih =>
    have hall : (deepening p).RelatesRequests (M.requests p (d + 1)) fun D =>
        M.requests p (D + 1) :=
      (deepening_tolerates.answering (fun _ _ _ => trivial) deepening_lawful (ih M.inner)
        deepening_resolveEntry deepening_unlessActive).requests deepening_lawful
    exact hall.of_succ

end Correspondence

/-- A request that does not reach its depth is answered in the same way at all great depths. -/
theorem perform_deeper {M : Machine} {p : Program} {m : Memory} (hm : m.RecordsFrom p) (q : Query)
    (hsteps : .exhausted ∉ ((q.performOn M p).run m).steps) :
    ∃ d, ∀ D, d ≤ D →
      ((q.performUsing (M.requests p D) p).run m).result = ((q.performOn M p).run m).result ∧
      ((q.performUsing (M.requests p D) p).run m).memory = ((q.performOn M p).run m).memory := by
  have hask := Correspondence.relates_outerRequests fun n =>
    Correspondence.deepening_requests (p := p) M (nestingDepth p n)
  obtain ⟨o, ⟨d, hd⟩, hagree⟩ := Correspondence.deepening_lawful.performUsing hask q [] m m
    ⟨rfl, hm⟩ fun s hs heq => hsteps (heq ▸ hs)
  refine ⟨d, fun D hD => ?_⟩
  rw [hd D hD]
  refine ⟨hagree.result, ?_⟩
  cases hr : ((q.performOn M p).run m).result with
  | ok t => exact (hagree.ok t hr).1.1
  | error e => exact (hagree.error e hr).1

end PhpTypes.Inference
