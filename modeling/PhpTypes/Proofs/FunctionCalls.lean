import Mathlib.Data.List.Nodup
import Mathlib.Data.List.TakeWhile
import PhpTypes.Inference.Request
import PhpTypes.Proofs.Registration

/-!
# Calls of functions

A call of a function by a name without separators does not look at the namespace where it stands. It
goes to the function of that name outside all namespaces, and to a function inside a namespace only
if there is none outside and no other function has the same name of its own.
-/

namespace PhpTypes

private theorem Text.lowerFrom_unqualified {cs : List Char} (h : '\\' ∉ cs) (before : List Char) :
    '\\' ∉ lowerFrom before cs := by
  induction cs generalizing before with
  | nil => simp [lowerFrom]
  | cons c cs ih =>
    rw [List.mem_cons, not_or] at h
    have hc : lowerChar c ≠ '\\' := lowerChar_ne_separator (Ne.symm h.1)
    have hrest := ih h.2 (c :: before)
    simp only [lowerFrom, List.mem_append, not_or]
    refine ⟨?_, hrest⟩
    repeat' split
    all_goals simp [hc.symm]

namespace Source

private theorem nameKey_unqualified {name : String} (h : '\\' ∉ name.toList) :
    nameKey name = Text.lower name := by
  have hkeep : name.toList.dropWhile (· == '\\') = name.toList := by
    cases hcs : name.toList with
    | nil => rfl
    | cons c cs =>
      have hc : c ≠ '\\' := by
        rintro rfl
        simp [hcs] at h
      exact List.dropWhile_cons_of_neg (by simpa using hc)
  rw [nameKey, plainName, hkeep, String.ofList_toList]

private theorem lastPart_unqualified {name : String} (h : '\\' ∉ name.toList) :
    lastPart name = name := by
  have hall : ∀ c ∈ name.toList.reverse, (c != '\\') = true := by
    intro c hc
    have hne : c ≠ '\\' := ne_of_mem_of_not_mem (List.mem_reverse.mp hc) h
    simpa using hne
  rw [lastPart, List.takeWhile_eq_self_iff.mpr hall, List.reverse_reverse, String.ofList_toList]

private theorem lastPart_nameKey {name : String} (h : '\\' ∉ name.toList) :
    lastPart (nameKey name) = nameKey name := by
  apply lastPart_unqualified
  rw [nameKey_unqualified h, Text.lower, String.toList_ofList]
  exact Text.lowerFrom_unqualified h []

end Source

namespace Index

open Source

variable {i : Index} {name : String} {g : Function}

/-- A function is registered under a full name, up to case. -/
def Registers (i : Index) (name : String) (g : Function) : Prop :=
  g ∈ i.functions.values ∧ nameKey g.fullName = nameKey name

private theorem Keyed.get?_eq_some_iff (hi : i.Keyed) :
    i.functions.get? (nameKey name) = some g ↔ i.Registers name g := by
  constructor
  · intro hget
    have hmem := Dict.mem_values_of_get? hget
    have hentry := Dict.mem_of_lookup hget
    exact ⟨hmem, (hi.key _ hentry).symm⟩
  · rintro ⟨hmem, hkey⟩
    rw [← hkey]
    exact hi.get? hmem

private theorem Keyed.get?_eq_none_iff (hi : i.Keyed) :
    i.functions.get? (nameKey name) = none ↔ ∀ g, ¬ i.Registers name g := by
  rw [Option.eq_none_iff_forall_ne_some]
  exact forall_congr' fun g => not_congr hi.get?_eq_some_iff

private theorem Keyed.nodup_functions (hi : i.Keyed) : i.functions.values.Nodup := by
  have hkeys : i.functions.keys = i.functions.values.map fun f => nameKey f.fullName := by
    rw [Dict.keys, Dict.values, List.map_map]
    exact List.map_congr_left hi.key
  have hnodup := hi.nodup
  rw [hkeys] at hnodup
  exact hnodup.of_map

/-- Among different elements the only one is the one that all are equal to. -/
theorem only?_eq_some_iff_forall {α : Type} {as : List α} {a : α} (has : as.Nodup) :
    only? as = some a ↔ a ∈ as ∧ ∀ b ∈ as, b = a := by
  rw [only?_eq_some_iff]
  constructor
  · rintro rfl
    simp
  · rintro ⟨hmem, hall⟩
    have hrep : as = List.replicate as.length a := List.eq_replicate_of_mem hall
    have hlength : as.length ≤ 1 := by
      rw [hrep] at has
      exact List.nodup_replicate.mp has
    have hpos : 0 < as.length := List.length_pos_of_mem hmem
    have hone : as.length = 1 := by omega
    rw [hrep, hone, List.replicate_one]

/-- The function of a name without separators: the one outside all namespaces or, if there is none,
the only one whose own name it is. -/
theorem Keyed.resolveFunction_iff (hi : i.Keyed) (hname : '\\' ∉ name.toList) :
    i.resolveFunction name = some g ↔ i.Registers name g ∨
      (∀ h, ¬ i.Registers name h) ∧ g ∈ i.functions.values ∧ Text.lower g.name = Text.lower name ∧
        ∀ h ∈ i.functions.values, Text.lower h.name = Text.lower name → h = g := by
  unfold resolveFunction
  simp only [lastPart_nameKey hname]
  cases hget : i.functions.get? (nameKey name) with
  | some d =>
    have hd : i.Registers name d := hi.get?_eq_some_iff.mp hget
    constructor
    · rintro ⟨⟩
      exact .inl hd
    · rintro (hg | ⟨hnone, -⟩)
      · exact hget.symm.trans (hi.get?_eq_some_iff.mpr hg)
      · exact absurd hd (hnone d)
  | none =>
    have hnone := hi.get?_eq_none_iff.mp hget
    have hnodup := hi.nodup_functions.filter fun f => Text.lower f.name == Text.lower name
    simp only [nameKey_unqualified hname, only?_eq_some_iff_forall hnodup, List.mem_filter,
      beq_iff_eq, hnone, not_false_eq_true, implies_true, false_or, true_and, and_imp, and_assoc]

end Index

namespace Inference

open Source

/-- The request for the type of a function that is registered. -/
def typeOfFunction (k : Policy) (p : Program) (ask : Requests) (g : Function) : Analysis Ty :=
  let r := Routine.ofFunction g
  k.routine (.function (Text.lower g.fullName)) r.label r.pos (r.infer p ask) (r.declare p)

/-- Calls by a name evaluate their arguments and then ask for the type of the function. -/
def CallsReach (k : Policy) (ask : Requests) (s : Site) (name : String) (g : Function) : Prop :=
  ∀ pos args, eval s (.call pos name args) = do
    evalArgs s args
    typeOfFunction k s.program ask g

private theorem callsReach_of_resolveFunction {k : Policy} {ask : Requests} {s : Site}
    {name : String}
    {g : Function} (hask : s.ask = answers k s.program ask) (hcall : builtIn name = .none)
    (hg : s.program.index.resolveFunction name = some g) : CallsReach k ask s name g := by
  intro pos args
  have htype : s.ask.functionType name = typeOfFunction k s.program ask g := by
    rw [hask]
    simp only [answers, functionType, hg]
    rfl
  simp only [eval, hcall, callFunction, hg, Option.isSome_some, if_true, htype]

/-- A call by a name without separators, in any namespace, reaches the function of that name outside
all namespaces if there is one. The function of that name inside the namespace is reached just if it
is that one itself, or if there is none outside and no other function has the same name of its
own. -/
theorem unqualified_call_reaches (k : Policy) (ask : Requests) (owner : Option ClassLike)
    (context : Context) {p : Program} {name : String} (hp : p.index.Keyed)
    (hname : '\\' ∉ name.toList) (hcall : builtIn name = .none) :
    let s : Site := ⟨p, answers k p ask, owner, context⟩
    (∀ g, p.index.resolveFunction name = some g → CallsReach k ask s name g) ∧
    (∀ g, p.index.Registers name g → p.index.resolveFunction name = some g) ∧
    ∀ g, p.index.Registers (context.qualified name) g →
      (p.index.resolveFunction name = some g ↔ p.index.Registers name g ∨
        (∀ h, ¬ p.index.Registers name h) ∧ Text.lower g.name = Text.lower name ∧
          ∀ h ∈ p.index.functions.values, Text.lower h.name = Text.lower name → h = g) := by
  refine ⟨fun g hg => callsReach_of_resolveFunction rfl hcall hg, fun g hg => ?_, fun g hg => ?_⟩
  · exact (hp.resolveFunction_iff hname).mpr (.inl hg)
  · rw [hp.resolveFunction_iff hname]
    have hmem : g ∈ p.index.functions.values := hg.1
    simp only [hmem, true_and]

/-! Functions of one name inside and outside a namespace. -/

/-- A function without parameters that returns the value of an expression. -/
def returning (context : Context) (name : String) (value : Expr) : Function :=
  ⟨⟨1, 1⟩, none, name, [], none, ⟨⟨1, 1⟩, [.returns ⟨1, 1⟩ none (some value)]⟩, context⟩

def appContext : Context := ⟨"App", .empty⟩

def appSize : Function := returning appContext "size" (.int ⟨1, 1⟩ 1)

def globalSize : Function := returning .global "size" (.string ⟨1, 1⟩ "x" false)

def appCaller : Function := returning appContext "caller" (.call ⟨1, 1⟩ "size" [])

/-- The program of some functions. -/
def functionsProgram (functions : List Function) : Program :=
  ⟨.ofFiles [⟨functions.map .functionDecl⟩], .empty⟩

private theorem functionsProgram_keyed (functions : List Function) :
    (functionsProgram functions).index.Keyed :=
  Index.keyed_ofFiles _

/-- A function that is alone with its name is reached from its namespace. -/
theorem appSize_reached :
    let p := functionsProgram [appSize, appCaller]
    p.index.Registers (appContext.qualified "size") appSize ∧
    CallsReach .remember (requests .remember p 1) ⟨p, requests .remember p 2, none, appContext⟩
      "size" appSize := by
  intro p
  have hvalues : p.index.functions.values = [appSize, appCaller] := rfl
  have hregistered : p.index.Registers (appContext.qualified "size") appSize :=
    ⟨by simp [hvalues], rfl⟩
  have hname : '\\' ∉ "size".toList := by decide
  have hcalls := unqualified_call_reaches .remember (requests .remember p 1) none appContext
    (functionsProgram_keyed [appSize, appCaller]) hname rfl
  have hglobal : ∀ h, ¬ p.index.Registers "size" h := by
    rintro h ⟨hmem, hkey⟩
    rw [hvalues, List.mem_pair] at hmem
    rcases hmem with rfl | rfl <;> revert hkey <;> decide
  have honly : ∀ h ∈ p.index.functions.values,
      Text.lower h.name = Text.lower "size" → h = appSize := by
    intro h hmem hown
    rw [hvalues, List.mem_pair] at hmem
    rcases hmem with rfl | rfl
    · rfl
    · exact absurd hown (by decide)
  exact ⟨hregistered,
    hcalls.1 appSize ((hcalls.2.2 appSize hregistered).mpr (.inr ⟨hglobal, rfl, honly⟩))⟩

/-- A function outside all namespaces hides the one inside, and the call gives its type. -/
theorem appSize_hidden :
    let p := functionsProgram [appSize, globalSize, appCaller]
    p.index.Registers (appContext.qualified "size") appSize ∧
    p.index.resolveFunction "size" = some globalSize ∧
    (((requests .remember p 2).functionType "App\\caller").run .empty).result =
      .ok (.string (some "x")) ∧
    (((requests .remember p 2).functionType "App\\size").run .empty).result =
      .ok (.int (some 1)) := by
  exact ⟨⟨List.mem_of_getElem? (i := 0) rfl, rfl⟩, rfl, rfl, rfl⟩

end Inference

end PhpTypes
