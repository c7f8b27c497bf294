import PhpTypes.Index.Name
import PhpTypes.Source.Outline

/-!
The tables of classes. One has each class under its full name, the other lists the classes of an own
name in all namespaces. A class that is declared again takes the place of the earlier one in the
first table and is listed last in the second. This needs the earlier one to be listed, so the tables
are kept in step.
-/

namespace PhpTypes

open Source

/-- What the full name of a class is compared by. -/
def Source.ClassLike.fullKey (c : ClassLike) : String := nameKey c.fullName

/-- What the name of a class inside its namespace is compared by. -/
def Source.ClassLike.ownKey (c : ClassLike) : String := Text.lower c.name

structure ClassTables where
  byFullName : Dict ClassLike
  byOwnName : Dict (List ClassLike)

/-- A list without the first element that has a property. -/
def withoutFirst? {α : Type} (p : α → Bool) : List α → Option (List α)
  | [] => none
  | a :: as => if p a then some as else (withoutFirst? p as).map (a :: ·)

/-- Takes a class off the list of its own name, if it is there. -/
def unlist? (d : Dict (List ClassLike)) (c : ClassLike) : Option (Dict (List ClassLike)) := do
  let listed ← d.get? c.ownKey
  let others ← withoutFirst? c.alike listed
  return d.set c.ownKey others

/-- The classes that are listed under an own name. -/
def listedAs (d : Dict (List ClassLike)) (own : String) : List ClassLike := (d.get? own).getD []

def enlist (d : Dict (List ClassLike)) (c : ClassLike) : Dict (List ClassLike) :=
  d.set c.ownKey (listedAs d c.ownKey ++ [c])

namespace ClassTables

def empty : ClassTables := ⟨.empty, .empty⟩

/-- The lists without an earlier class of the same full name. -/
def others? (t : ClassTables) (c : ClassLike) : Option (Dict (List ClassLike)) :=
  match t.byFullName.get? c.fullKey with
  | none => some t.byOwnName
  | some old => unlist? t.byOwnName old

/-- Registers a class. The tables are not fit for it if there is an earlier class of its full name
that is not listed. -/
def register? (t : ClassTables) (c : ClassLike) : Option ClassTables :=
  (t.others? c).map fun others => ⟨t.byFullName.set c.fullKey c, enlist others c⟩

end ClassTables

private theorem withoutFirst?_perm {α : Type} {p : α → Bool} {as : List α} {a : α} (ha : a ∈ as)
    (hp : p a = true) (honly : ∀ b ∈ as, p b = true → b = a) :
    ∃ others, withoutFirst? p as = some others ∧ as.Perm (a :: others) := by
  induction as with
  | nil => cases ha
  | cons b as ih =>
    by_cases hb : p b = true
    · obtain rfl := honly b List.mem_cons_self hb
      exact ⟨as, by simp [withoutFirst?, hb], .rfl⟩
    · have hmem : a ∈ as := by
        rcases List.mem_cons.mp ha with rfl | h
        · exact absurd hp hb
        · exact h
      obtain ⟨others, hothers, hperm⟩ := ih hmem fun c hc => honly c (List.mem_cons_of_mem _ hc)
      refine ⟨b :: others, by simp [withoutFirst?, hb, hothers], ?_⟩
      exact (hperm.cons b).trans (.swap a b others)

/-- Each own name has the list of its classes. -/
def Lists (d : Dict (List ClassLike)) (cs : List ClassLike) : Prop :=
  ∀ own, (listedAs d own).Perm (cs.filter fun c => c.ownKey == own)

private theorem listedAs_set_self (d : Dict (List ClassLike)) (own : String) (cs : List ClassLike) :
    listedAs (d.set own cs) own = cs := by
  simp [listedAs]

private theorem listedAs_set_ne (d : Dict (List ClassLike)) {own other : String} (h : other ≠ own)
    (cs : List ClassLike) : listedAs (d.set own cs) other = listedAs d other := by
  simp [listedAs, d.get?_set_ne h]

namespace Lists

variable {d : Dict (List ClassLike)} {cs : List ClassLike}

private theorem of_perm (h : Lists d cs) {cs' : List ClassLike} (hperm : cs.Perm cs') :
    Lists d cs' :=
  fun own => (h own).trans (hperm.filter _)

private theorem enlist (h : Lists d cs) (c : ClassLike) : Lists (enlist d c) (c :: cs) := by
  intro own
  by_cases hown : own = c.ownKey
  · subst hown
    rw [PhpTypes.enlist, listedAs_set_self, List.filter_cons_of_pos (by simp)]
    exact List.perm_append_singleton c _ |>.trans ((h c.ownKey).cons c)
  · rw [PhpTypes.enlist, listedAs_set_ne d hown,
      List.filter_cons_of_neg (by simpa using Ne.symm hown)]
    exact h own

private theorem unlist {c : ClassLike} (h : Lists d (c :: cs))
    (honly : ∀ b ∈ cs, c.alike b = true → b = c) :
    ∃ d', unlist? d c = some d' ∧ Lists d' cs := by
  have hown := h c.ownKey
  rw [List.filter_cons_of_pos (by simp)] at hown
  have hlisted : c ∈ listedAs d c.ownKey := hown.mem_iff.mpr List.mem_cons_self
  obtain ⟨listed, hget⟩ : ∃ listed, d.get? c.ownKey = some listed := by
    cases hd : d.get? c.ownKey with
    | none => simp [listedAs, hd] at hlisted
    | some listed => exact ⟨listed, rfl⟩
  have heq : listedAs d c.ownKey = listed := by simp [listedAs, hget]
  rw [heq] at hown hlisted
  have hone : ∀ b ∈ listed, c.alike b = true → b = c := by
    intro b hb halike
    rcases List.mem_cons.mp (hown.mem_iff.mp hb) with rfl | hb
    · rfl
    · exact honly b (List.mem_filter.mp hb).1 halike
  obtain ⟨others, hothers, hperm⟩ := withoutFirst?_perm hlisted c.alike_self hone
  refine ⟨d.set c.ownKey others, by simp [unlist?, hget, hothers], fun own => ?_⟩
  by_cases ho : own = c.ownKey
  · subst ho
    rw [listedAs_set_self]
    exact (hperm.symm.trans hown).cons_inv
  · have hother := h own
    rw [List.filter_cons_of_neg (by simpa using Ne.symm ho)] at hother
    rw [listedAs_set_ne d ho]
    exact hother

end Lists

namespace ClassTables

/-- Both tables have the same classes, each once. -/
structure InStep (t : ClassTables) : Prop where
  keyed : t.byFullName.KeyedBy ClassLike.fullKey
  lists : Lists t.byOwnName t.byFullName.values

theorem inStep_empty : empty.InStep := ⟨Dict.keyedBy_empty _, fun _ => .nil⟩

theorem InStep.mem_listedAs {t : ClassTables} (h : t.InStep) {own : String} {c : ClassLike} :
    c ∈ listedAs t.byOwnName own ↔ c ∈ t.byFullName.values ∧ c.ownKey = own := by
  rw [(h.lists own).mem_iff, List.mem_filter, beq_iff_eq]

/-- Tables in step are fit for every class, and stay in step. -/
theorem InStep.register {t : ClassTables} (h : t.InStep) (c : ClassLike) :
    ∃ t', t.register? c = some t' ∧ t'.InStep := by
  have hkeyed := h.keyed.set c
  cases hget : t.byFullName.get? c.fullKey with
  | none =>
    have hothers : t.others? c = some t.byOwnName := by simp [others?, hget]
    refine ⟨_, by rw [register?, hothers, Option.map_some], hkeyed, ?_⟩
    rw [Dict.values_set_of_none hget]
    exact (h.lists.enlist c).of_perm (List.perm_append_singleton c _).symm
  | some old =>
    obtain ⟨before, after, hold, hnew⟩ := Dict.values_set_of_some hget c
    have hsplit : t.byFullName.values.Perm (old :: (before ++ after)) :=
      hold ▸ List.perm_middle
    -- No other class is like the earlier one, because it would have the same full name.
    have honly : ∀ b ∈ before ++ after, old.alike b = true → b = old := by
      intro b hb halike
      have hmem : b ∈ t.byFullName.values := hsplit.mem_iff.mpr (List.mem_cons_of_mem _ hb)
      have hkey : b.fullKey = old.fullKey := by
        rw [ClassLike.fullKey, ClassLike.fullKey, ClassLike.fullName_of_alike halike]
      exact h.keyed.eq_of_key hmem (Dict.mem_values_of_get? hget) hkey
    obtain ⟨others, hunlist, hlists⟩ := (h.lists.of_perm hsplit).unlist honly
    have hothers : t.others? c = some others := by simp [others?, hget, hunlist]
    refine ⟨_, by rw [register?, hothers, Option.map_some], hkeyed, ?_⟩
    rw [hnew]
    exact (hlists.enlist c).of_perm List.perm_middle.symm

private theorem InStep.register_isSome {t : ClassTables} (h : t.InStep) (c : ClassLike) :
    (t.register? c).isSome = true := by
  obtain ⟨t', ht, -⟩ := h.register c
  simp [ht]

/-- Registers a class in tables that are fit for it. -/
def register (t : ClassTables) (h : t.InStep) (c : ClassLike) : ClassTables :=
  (t.register? c).get (h.register_isSome c)

theorem register?_eq_register {t : ClassTables} (h : t.InStep) (c : ClassLike) :
    t.register? c = some (t.register h c) := by
  simp [register]

theorem inStep_register {t : ClassTables} (h : t.InStep) (c : ClassLike) :
    (t.register h c).InStep := by
  obtain ⟨t', ht, ht'⟩ := h.register c
  rw [register?_eq_register h] at ht
  exact Option.some.inj ht ▸ ht'

end ClassTables

end PhpTypes
