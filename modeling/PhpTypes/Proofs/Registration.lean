import Mathlib.Data.List.Basic
import Mathlib.Data.List.Induction
import PhpTypes.Frontend
import PhpTypes.Proofs.Keys

/-!
# The index as a function of the declarations

All that the index knows of classes comes from the log of the declarations that were processed. Of
the declarations with one full name the latest survives, at the place of the first. The classes of
the index are the survivors, registering them never fails, and a name stands for the survivor of
that full name, or else for the only survivor whose own name is its last part.
-/

namespace PhpTypes

open Source

namespace Dict

variable {α : Type}

theorem keys_set (d : Dict α) (key : String) (value : α) :
    (d.set key value).keys = if key ∈ d.keys then d.keys else d.keys ++ [key] := by
  obtain ⟨es⟩ := d
  change (assign key value es).map Prod.fst =
    if key ∈ es.map Prod.fst then es.map Prod.fst else es.map Prod.fst ++ [key]
  induction es with
  | nil => simp [assign]
  | cons e es ih =>
    obtain ⟨k, v⟩ := e
    by_cases hk : k = key
    · simp [assign, hk]
    · have hne : key ≠ k := Ne.symm hk
      simp only [assign, hk, if_false, List.map_cons, ih, List.mem_cons, hne, false_or]
      by_cases hmem : key ∈ es.map Prod.fst <;> simp [hmem]

/-- The values in order are those of the keys in order. -/
theorem KeyedBy.values_eq {f : α → String} {d : Dict α} (hd : d.KeyedBy f) :
    d.values = d.keys.filterMap d.get? := by
  have hget : ∀ e ∈ d.entries, d.get? e.1 = some e.2 := by
    intro e he
    have hvalue := hd.get? (List.mem_map_of_mem (f := Prod.snd) he)
    rwa [← hd.key e he] at hvalue
  rw [values, keys, List.filterMap_map]
  have hcongr : d.entries.filterMap (d.get? ∘ Prod.fst) = d.entries.filterMap (some ∘ Prod.snd) :=
    List.filterMap_congr fun e he => hget e he
  rw [hcongr, ← List.filterMap_map, List.filterMap_some]

end Dict

/-! Survivors of a log. -/

/-- The latest declaration with a key. -/
def latest (log : List ClassLike) (key : String) : Option ClassLike :=
  log.reverse.find? fun c => c.fullKey == key

/-- The latest declarations of all full names, in the order in which the names came first. -/
def survivors (log : List ClassLike) : List ClassLike :=
  (log.map ClassLike.fullKey).eraseDups.filterMap (latest log)

private theorem latest_snoc (log : List ClassLike) (c : ClassLike) (key : String) :
    latest (log ++ [c]) key = if key = c.fullKey then some c else latest log key := by
  rw [latest, List.reverse_concat, List.find?_cons]
  by_cases hkey : key = c.fullKey
  · simp [hkey]
  · have hne : (c.fullKey == key) = false := by simpa using Ne.symm hkey
    simp [hkey, hne, latest]

private theorem eraseDups_snoc (keys : List String) (key : String) :
    (keys ++ [key]).eraseDups =
      if key ∈ keys then keys.eraseDups else keys.eraseDups ++ [key] := by
  rw [List.eraseDups_append]
  by_cases hmem : key ∈ keys
  · simp [List.removeAll, hmem]
  · simp [List.removeAll, hmem, List.eraseDups_cons]

namespace ClassTables

private theorem register?_byFullName {t t' : ClassTables} {c : ClassLike}
    (h : t.register? c = some t') : t'.byFullName = t.byFullName.set c.fullKey c := by
  obtain ⟨others, -, rfl⟩ := Option.map_eq_some_iff.mp h
  rfl

/-- The table of full names after a log has its keys in their first order, each with the latest
declaration. -/
theorem byFullName_of_log {log : List ClassLike} {t : ClassTables}
    (h : log.foldlM register? empty = some t) :
    t.byFullName.keys = (log.map ClassLike.fullKey).eraseDups ∧
      ∀ key, t.byFullName.get? key = latest log key := by
  induction log using List.reverseRecOn generalizing t with
  | nil =>
    obtain rfl := Option.some.inj h
    exact ⟨rfl, fun _ => rfl⟩
  | append_singleton log c ih =>
    rw [List.foldlM_append] at h
    obtain ⟨before, hbefore, hc⟩ := Option.bind_eq_some_iff.mp h
    obtain ⟨hkeys, hget⟩ := ih hbefore
    have hreg : before.register? c = some t := by simpa using hc
    rw [register?_byFullName hreg]
    constructor
    · rw [Dict.keys_set, hkeys, List.map_append, List.map_singleton, eraseDups_snoc]
      simp only [List.mem_eraseDups]
    · intro key
      rw [latest_snoc]
      by_cases hkey : key = c.fullKey
      · simp [hkey]
      · rw [if_neg hkey, Dict.get?_set_ne _ hkey, hget]

end ClassTables

namespace Index

theorem values_of_log {i : Index} {log : List ClassLike}
    (h : log.foldlM ClassTables.register? .empty = some i.tables) :
    i.classes.values = survivors log := by
  obtain ⟨hkeys, hget⟩ := ClassTables.byFullName_of_log h
  have hvalues : i.classes.values = i.classes.keys.filterMap i.classes.get? :=
    i.inStep.keyed.values_eq
  rw [hvalues, survivors, ← hkeys]
  exact List.filterMap_congr fun key _ => hget key

theorem only?_eq_some_iff {α : Type} {as : List α} {a : α} : only? as = some a ↔ as = [a] := by
  match as with
  | [] => simp [only?]
  | [b] => simp [only?]
  | b :: c :: as => simp [only?]

theorem resolve_of_fullKey {i : Index} {name : String} (hname : name ≠ "") {c : ClassLike}
    (hc : c ∈ i.classes.values) (hkey : c.fullKey = nameKey name) : i.resolve name = some c := by
  have hget : i.classes.get? (nameKey name) = some c := hkey ▸ get?_fullKey hc
  simp [resolve, hname, hget]

/-- A name that is no full name stands for the only class whose own name is its last part. -/
theorem resolve_of_lastPart {i : Index} {name : String} (hname : name ≠ "")
    (hkey : ∀ c ∈ i.classes.values, c.fullKey ≠ nameKey name) (c : ClassLike) :
    i.resolve name = some c ↔
      (i.classes.values.filter fun d => d.ownKey == lastPart (nameKey name)) = [c] := by
  have hget : i.classes.get? (nameKey name) = none := by
    cases hd : i.classes.get? (nameKey name) with
    | none => rfl
    | some d =>
      have hentry := i.inStep.keyed.key _ (Dict.mem_of_lookup hd)
      exact absurd hentry.symm (hkey d (Dict.mem_values_of_get? hd))
  have hresolve :
      i.resolve name = only? (listedAs i.tables.byOwnName (lastPart (nameKey name))) := by
    simp [resolve, hname, hget]
  have hlists := i.inStep.lists (lastPart (nameKey name))
  rw [hresolve, only?_eq_some_iff]
  constructor
  · intro h
    exact List.perm_singleton.mp (h ▸ hlists).symm
  · intro h
    exact List.perm_singleton.mp (hlists.trans (.of_eq h))

end Index

/-! Processing sources. -/

def Source.Top.class? : Top → Option ClassLike
  | .classDecl c => some c
  | _ => none

def Source.File.classes (f : File) : List ClassLike := f.tops.filterMap Top.class?

/-- The classes that a source declares, at their places; a source with an error declares none. -/
def declaredClasses (source : String) : List ClassLike :=
  match parse source with
  | .ok file => file.placed.classes
  | .error _ => []

/-- The classes that sources declare, one source after the other. -/
def declaredLog (sources : List (String × String)) : List ClassLike :=
  sources.flatMap fun s => declaredClasses s.2

namespace Frontend

/-- Processes sources, each with its name. -/
def processAll (f : Frontend) (sources : List (String × String)) : Frontend :=
  sources.foldl (fun f s => (f.process s.1 s.2).1) f

end Frontend

namespace Index

private theorem addTop_registers (i : Index) (t : Top) :
    t.class?.toList.foldlM ClassTables.register? i.tables = some (i.addTop t).tables := by
  cases t with
  | classDecl c => simp [Top.class?, addTop, addClass, ClassTables.register?_eq_register i.inStep]
  | _ => rfl

private theorem add_registers (i : Index) (f : File) :
    f.classes.foldlM ClassTables.register? i.tables = some (i.add f).tables := by
  obtain ⟨tops⟩ := f
  change (tops.filterMap Top.class?).foldlM _ _ = some (tops.foldl addTop i).tables
  induction tops generalizing i with
  | nil => rfl
  | cons t ts ih =>
    have hsplit : (t :: ts).filterMap Top.class? = t.class?.toList ++ ts.filterMap Top.class? := by
      cases ht : t.class? <;> simp [ht]
    rw [hsplit, List.foldlM_append, addTop_registers, Option.bind_eq_bind, Option.bind_some]
    exact ih (i.addTop t)

end Index

namespace Frontend

private theorem process_registers (f : Frontend) (name source : String) :
    (declaredClasses source).foldlM ClassTables.register? f.index.tables =
      some (f.process name source).1.index.tables := by
  unfold declaredClasses process
  cases parse source with
  | error e => rfl
  | ok file => exact f.index.add_registers file.placed

theorem processAll_registers (f : Frontend) (sources : List (String × String)) :
    (declaredLog sources).foldlM ClassTables.register? f.index.tables =
      some (f.processAll sources).index.tables := by
  induction sources generalizing f with
  | nil => rfl
  | cons s sources ih =>
    rw [declaredLog, List.flatMap_cons, List.foldlM_append, f.process_registers s.1,
      Option.bind_eq_bind, Option.bind_some]
    exact ih _

/-- After any sources, on a front end that starts without declarations: no class of their log failed
to be registered, the classes of the index are the survivors of the log, and a name stands for the
survivor of that full name, or else for the only survivor with its last part as own name. -/
theorem processAll_survivors (natives : Natives) (diags : Diags) (events : List Event)
    (sources : List (String × String)) :
    let index := (processAll ⟨natives, .empty, diags, events⟩ sources).index
    let living := survivors (declaredLog sources)
    (declaredLog sources).foldlM ClassTables.register? .empty = some index.tables ∧
    index.classes.values = living ∧
    ∀ name, name ≠ "" →
      (∀ c ∈ living, c.fullKey = nameKey name → index.resolve name = some c) ∧
      ((∀ c ∈ living, c.fullKey ≠ nameKey name) → ∀ c, index.resolve name = some c ↔
        living.filter (fun d => d.ownKey == lastPart (nameKey name)) = [c]) := by
  intro index living
  have hlog := processAll_registers ⟨natives, .empty, diags, events⟩ sources
  have hvalues : index.classes.values = living := Index.values_of_log hlog
  refine ⟨hlog, hvalues, fun name hname => ?_⟩
  rw [← hvalues]
  exact ⟨fun c hc hkey => Index.resolve_of_fullKey hname hc hkey,
    fun hkey c => Index.resolve_of_lastPart hname hkey c⟩

/-- The first class is declared again in other letters, and the second source has no tree. -/
def redeclaringSources : List (String × String) :=
  [("first", "<?php namespace N; class A {} class B {}"), ("second", "<?php class"),
    ("third", "<?php namespace n; class a {} namespace M; class B {}")]

/-- Two classes have the own name `b`, so that only `a` stands for a class. -/
theorem redeclaringSources_survivors :
    (survivors (declaredLog redeclaringSources)).map ClassLike.fullName =
      ["n\\a", "N\\B", "M\\B"] ∧
    "A" ≠ "" ∧ "B" ≠ "" ∧
    ((processAll .empty redeclaringSources).index.resolve "A").map ClassLike.fullName =
      some "n\\a" ∧
    (processAll .empty redeclaringSources).index.resolve "B" = none := by
  obtain ⟨-, -, hresolve⟩ := processAll_survivors .empty [] [] redeclaringSources
  have hkeys : (declaredLog redeclaringSources).map ClassLike.fullKey =
      ["n\\a", "n\\b", "n\\a", "m\\b"] := by decide +kernel
  have hnames : (["n\\a", "n\\b", "m\\b"].filterMap (latest (declaredLog redeclaringSources))).map
      (fun c => (c.fullName, c.fullKey, c.ownKey)) =
      [("n\\a", "n\\a", "a"), ("N\\B", "n\\b", "b"), ("M\\B", "m\\b", "b")] := by
    decide +kernel
  have hliving : survivors (declaredLog redeclaringSources) =
      ["n\\a", "n\\b", "m\\b"].filterMap (latest (declaredLog redeclaringSources)) := by
    rw [survivors, hkeys]
    rfl
  rw [← hliving] at hnames
  simp only [List.map_eq_cons_iff, List.map_eq_nil_iff, Prod.mk.injEq] at hnames
  obtain ⟨a, _, heq, ⟨ha, hkeyA, hownA⟩, b, _, rfl, ⟨hb, hkeyB, hownB⟩, c, _, rfl,
    ⟨hc, hkeyC, hownC⟩, rfl⟩ := hnames
  have hlastA : nameKey "A" = "a" ∧ lastPart "a" = "a" := by decide
  have hlastB : nameKey "B" = "b" ∧ lastPart "b" = "b" := by decide
  have hA : (processAll .empty redeclaringSources).index.resolve "A" = some a := by
    apply ((hresolve "A" (by decide)).2 _ a).mpr
    · simp [heq, hlastA, hownA, hownB, hownC]
    · simp [heq, hlastA, hkeyA, hkeyB, hkeyC]
  have hB : ∀ d, (processAll .empty redeclaringSources).index.resolve "B" ≠ some d := by
    intro d hd
    have hone := ((hresolve "B" (by decide)).2 (by simp [heq, hlastB, hkeyA, hkeyB, hkeyC]) d).mp hd
    simp [heq, hlastB, hownA, hownB, hownC] at hone
  simp [heq, ha, hb, hc, hA, Option.eq_none_iff_forall_ne_some, hB]

end Frontend

end PhpTypes
