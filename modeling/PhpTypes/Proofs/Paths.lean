import PhpTypes.Inference.Evaluate

/-!
# Control paths

The paths that control can take through statements, whatever the conditions are. A path has the
simple statements that are run on it and the way in which it ends. A loop body is run once or not at
all, and that of `do` once.
-/

namespace PhpTypes.Inference

open Source

/-- How a path ends. -/
inductive Exit where
  | falls
  | breaks
  | continues
  | returns (value : Option Expr)
  | throws

namespace Exit

/-- A `break` or `continue` ends the statement that it belongs to. -/
def leave : Exit → Exit
  | .breaks => .falls
  | .continues => .falls
  | x => x

/-- What follows in any case goes before the end so far. -/
def thenAlways (x : Exit) : Exit → Exit
  | .falls => x
  | y => y

end Exit

def isBreak : Stmt → Bool
  | .breaks _ => true
  | _ => false

theorem isBreak_cases (stmt : Stmt) : (∃ pos, stmt = .breaks pos) ∨ isBreak stmt = false := by
  cases stmt <;> simp [isBreak]

def elseIfBody : ElseIf → Stmt
  | .mk _ _ body => body

def catchBody : Catch → List Stmt
  | .mk _ _ _ _ body => body

def caseBody : Case → List Stmt
  | .test _ _ body => body
  | .fallback _ body => body

/-- How a jump is taken that does not stand directly in a case of a `switch`. -/
inductive Jumps where
  | obeyed
  /-- It does nothing. -/
  | passed

def Jumps.exit : Jumps → Exit → Exit
  | .obeyed, x => x
  | .passed, _ => .falls

mutual

inductive Path (j : Jumps) : Stmt → List Stmt → Exit → Prop where
  | empty : Path j .empty [] .falls
  | expr {pos doc e} : Path j (.expr pos doc e) [.expr pos doc e] .falls
  | echo {pos values} : Path j (.echo pos values) [.echo pos values] .falls
  | globals {pos names} : Path j (.globals pos names) [.globals pos names] .falls
  | statics {pos vars} : Path j (.statics pos vars) [.statics pos vars] .falls
  | includes {pos path} : Path j (.includes pos path) [.includes pos path] .falls
  | breaks {pos} : Path j (.breaks pos) [] (j.exit .breaks)
  | continues {pos} : Path j (.continues pos) [] (j.exit .continues)
  | returns {pos doc value} : Path j (.returns pos doc value) [] (.returns value)
  | throws {pos value} : Path j (.throws pos value) [] .throws
  | block {pos body es x} : PathAll j body es x → Path j (.block pos body) es x
  | yes {pos doc condition yes elseIfs no es x} :
    Path j yes es x → Path j (.conditional pos doc condition yes elseIfs no) es x
  | elseIf {pos doc condition yes elseIfs no es x e} :
    e ∈ elseIfs → Path j (elseIfBody e) es x →
      Path j (.conditional pos doc condition yes elseIfs no) es x
  | no {pos doc condition yes elseIfs no es x} :
    Path j no es x → Path j (.conditional pos doc condition yes elseIfs no) es x
  | whileSkip {pos condition body} : Path j (.whileLoop pos condition body) [] .falls
  | whileOnce {pos condition body es x} :
    Path j body es x → Path j (.whileLoop pos condition body) es x.leave
  | forSkip {pos start condition step body} :
    Path j (.forLoop pos start condition step body) [] .falls
  | forOnce {pos start condition step body es x} :
    Path j body es x → Path j (.forLoop pos start condition step body) es x.leave
  | foreachSkip {pos iterable key value body} :
    Path j (.foreachLoop pos iterable key value body) [] .falls
  | foreachOnce {pos iterable key value body es x} :
    Path j body es x → Path j (.foreachLoop pos iterable key value body) es x.leave
  | doOnce {pos body condition es x} :
    Path j body es x → Path j (.doLoop pos body condition) es x.leave
  /-- A `switch` is entered at any case, and goes on through the cases after it. -/
  | enter {pos subject cases after es x} :
    after ≠ [] → after <:+ cases → PathCase j (after.flatMap caseBody) es x →
      Path j (.switch pos subject cases) es x.leave
  | skip {pos subject cases} :
    cases.any isFallback = false → Path j (.switch pos subject cases) [] .falls
  | tried {pos bodyPos body catches finalizer es x fs y} :
    PathAll j body es x → Path j finalizer fs y →
      Path j (.guarded pos bodyPos body catches finalizer) (es ++ fs) (x.thenAlways y)
  | caught {pos bodyPos body catches finalizer es x fs y c} :
    c ∈ catches → PathAll j (catchBody c) es x → Path j finalizer fs y →
      Path j (.guarded pos bodyPos body catches finalizer) (es ++ fs) (x.thenAlways y)

inductive PathAll (j : Jumps) : List Stmt → List Stmt → Exit → Prop where
  | done : PathAll j [] [] .falls
  | stop {stmt rest es x} : Path j stmt es x → x ≠ .falls → PathAll j (stmt :: rest) es x
  | next {stmt rest es fs x} :
    Path j stmt es .falls → PathAll j rest fs x → PathAll j (stmt :: rest) (es ++ fs) x

/-- The paths through statements that stand directly in cases, where a `break` always counts. -/
inductive PathCase (j : Jumps) : List Stmt → List Stmt → Exit → Prop where
  | done : PathCase j [] [] .falls
  | breaks {pos rest} : PathCase j (.breaks pos :: rest) [] .breaks
  | stop {stmt rest es x} : isBreak stmt = false →
    Path j stmt es x → x ≠ .falls → PathCase j (stmt :: rest) es x
  | next {stmt rest es fs x} : isBreak stmt = false →
    Path j stmt es .falls → PathCase j rest fs x → PathCase j (stmt :: rest) (es ++ fs) x

end

variable {j : Jumps} {es : List Stmt} {x : Exit}

/-! The paths through statements that change how a path ends. -/

theorem path_do_iff {pos : Pos} {body : Stmt} {condition : Expr} :
    Path j (.doLoop pos body condition) es x ↔ ∃ y, Path j body es y ∧ x = y.leave := by
  constructor
  · intro h
    cases h with
    | doOnce h => exact ⟨_, h, rfl⟩
  · rintro ⟨y, h, rfl⟩
    exact .doOnce h

/-- A path that enters a `switch` at one of its cases. -/
def EntryPath (j : Jumps) (cases : List Case) (es : List Stmt) (x : Exit) : Prop :=
  ∃ after y, after ≠ [] ∧ after <:+ cases ∧ PathCase j (after.flatMap caseBody) es y ∧ x = y.leave

theorem entryPath_cons_iff {c : Case} {cases : List Case} :
    EntryPath j (c :: cases) es x ↔
      (∃ y, PathCase j ((c :: cases).flatMap caseBody) es y ∧ x = y.leave) ∨
        EntryPath j cases es x := by
  constructor
  · rintro ⟨after, y, hne, hsuffix, h, hx⟩
    rcases List.suffix_cons_iff.mp hsuffix with rfl | hsuffix
    · exact .inl ⟨y, h, hx⟩
    · exact .inr ⟨after, y, hne, hsuffix, h, hx⟩
  · rintro (⟨y, h, hx⟩ | ⟨after, y, hne, hsuffix, h, hx⟩)
    · exact ⟨c :: cases, y, List.cons_ne_nil c cases, List.suffix_refl _, h, hx⟩
    · exact ⟨after, y, hne, hsuffix.trans (List.suffix_cons c cases), h, hx⟩

theorem not_entryPath_nil : ¬EntryPath j [] es x := by
  rintro ⟨after, y, hne, hsuffix, -⟩
  exact hne (List.suffix_nil.mp hsuffix)

theorem path_switch_iff {pos : Pos} {subject : Expr} {cases : List Case} :
    Path j (.switch pos subject cases) es x ↔
      EntryPath j cases es x ∨ (cases.any isFallback = false ∧ es = [] ∧ x = .falls) := by
  constructor
  · intro h
    cases h with
    | enter hne hsuffix h => exact .inl ⟨_, _, hne, hsuffix, h, rfl⟩
    | skip h => exact .inr ⟨h, rfl, rfl⟩
  · rintro (⟨after, y, hne, hsuffix, h, rfl⟩ | ⟨h, rfl, rfl⟩)
    · exact .enter hne hsuffix h
    · exact .skip h

theorem path_guarded_iff {pos bodyPos : Pos} {body : List Stmt} {catches : List Catch}
    {finalizer : Stmt} :
    Path j (.guarded pos bodyPos body catches finalizer) es x ↔
      ∃ es' y fs z, (PathAll j body es' y ∨ ∃ c ∈ catches, PathAll j (catchBody c) es' y) ∧
        Path j finalizer fs z ∧ es = es' ++ fs ∧ x = y.thenAlways z := by
  constructor
  · intro h
    cases h with
    | tried h hfin => exact ⟨_, _, _, _, .inl h, hfin, rfl, rfl⟩
    | caught hmem h hfin => exact ⟨_, _, _, _, .inr ⟨_, hmem, h⟩, hfin, rfl, rfl⟩
  · rintro ⟨es', y, fs, z, h | ⟨c, hmem, h⟩, hfin, rfl, rfl⟩
    · exact .tried h hfin
    · exact .caught hmem h hfin

theorem pathCase_break_iff {pos : Pos} {rest : List Stmt} :
    PathCase j (.breaks pos :: rest) es x ↔ es = [] ∧ x = .breaks := by
  constructor
  · intro h
    cases h with
    | breaks => exact ⟨rfl, rfl⟩
    | stop hb => cases hb
    | next hb => cases hb
  · rintro ⟨rfl, rfl⟩
    exact .breaks

/-- A path through one part after the other ends in the first part or goes through it. -/
theorem pathCase_append_iff {as bs : List Stmt} :
    PathCase j (as ++ bs) es x ↔
      (PathCase j as es x ∧ x ≠ .falls) ∨
        ∃ es' fs, es = es' ++ fs ∧ PathCase j as es' .falls ∧ PathCase j bs fs x := by
  induction as generalizing es with
  | nil =>
    constructor
    · intro h
      exact .inr ⟨[], es, rfl, .done, h⟩
    · rintro (⟨h, hx⟩ | ⟨es', fs, rfl, h, hrest⟩)
      · cases h
        exact absurd rfl hx
      · cases h
        exact hrest
  | cons a as ih =>
    constructor
    · intro h
      cases h with
      | breaks => exact .inl ⟨.breaks, by simp⟩
      | stop hb h hx => exact .inl ⟨.stop hb h hx, hx⟩
      | next hb h hrest =>
        rcases ih.mp hrest with ⟨has, hx⟩ | ⟨es', fs, rfl, has, hbs⟩
        · exact .inl ⟨.next hb h has, hx⟩
        · exact .inr ⟨_, fs, (List.append_assoc _ _ _).symm, .next hb h has, hbs⟩
    · rintro (⟨h, hx⟩ | ⟨es', fs, rfl, h, hbs⟩)
      · cases h with
        | breaks => exact .breaks
        | stop hb h hx => exact .stop hb h hx
        | next hb h has => exact .next hb h (ih.mpr (.inl ⟨has, hx⟩))
      · cases h with
        | stop hb h hx => exact absurd rfl hx
        | next hb h has =>
          rw [List.append_assoc]
          exact .next hb h (ih.mpr (.inr ⟨_, fs, rfl, has, hbs⟩))

theorem runCase_cons {s : Site} {stmt : Stmt} {rest : List Stmt} (hb : isBreak stmt = false) :
    runCase s (stmt :: rest) =
      (do if ← exec s stmt then return .terminates else runCase s rest) := by
  rw [runCase]
  rintro pos rfl
  cases hb

/-! Where jumps are passed over, only a `break` directly in a case is left. -/

theorem Exit.leave_leave (x : Exit) : x.leave.leave = x.leave := by
  cases x <;> rfl

theorem Exit.leave_thenAlways {x y : Exit} (hx : x.leave = x) (hy : y.leave = y) :
    (x.thenAlways y).leave = x.thenAlways y := by
  cases y <;> first | exact hx | exact hy

theorem Exit.thenAlways_eq_falls {x y : Exit} :
    x.thenAlways y = .falls ↔ x = .falls ∧ y = .falls := by
  cases y <;> simp [thenAlways]

mutual

theorem Path.leave_exit {stmt : Stmt} {es : List Stmt} {x : Exit} :
    Path .passed stmt es x → x.leave = x
  | .empty | .expr | .echo | .globals | .statics | .includes | .breaks | .continues | .returns
  | .throws | .whileSkip | .forSkip | .foreachSkip | .skip _ => rfl
  | .block h => h.leave_exit
  | .yes h | .elseIf _ h | .no h => h.leave_exit
  | .whileOnce _ | .forOnce _ | .foreachOnce _ | .doOnce _ | .enter _ _ _ => Exit.leave_leave _
  | .tried h hfin | .caught _ h hfin => Exit.leave_thenAlways h.leave_exit hfin.leave_exit

theorem PathAll.leave_exit {body es : List Stmt} {x : Exit} :
    PathAll .passed body es x → x.leave = x
  | .done => rfl
  | .stop h _ => h.leave_exit
  | .next _ hrest => hrest.leave_exit

end

theorem PathCase.leave_exit {body es : List Stmt} {x : Exit} (h : PathCase .passed body es x) :
    x = .breaks ∨ x.leave = x := by
  induction body generalizing es with
  | nil =>
    cases h
    exact .inr rfl
  | cons stmt rest ih =>
    cases h with
    | breaks => exact .inl rfl
    | stop _ h _ => exact .inr h.leave_exit
    | next _ _ hrest => exact ih hrest

/-! Statements whose jumps are no matter of how they are taken. -/

mutual

/-- No `continue`, and no `break` except directly in a case of a `switch`. -/
def orderly : Stmt → Bool
  | .breaks _ => false
  | .continues _ => false
  | .block _ body => orderlyAll body
  | .conditional _ _ _ yes elseIfs no => orderly yes && orderlyElseIfs elseIfs && orderly no
  | .whileLoop _ _ body => orderly body
  | .doLoop _ body _ => orderly body
  | .forLoop _ _ _ _ body => orderly body
  | .foreachLoop _ _ _ _ body => orderly body
  | .switch _ _ cases => orderlyCases cases
  | .guarded _ _ body catches finalizer =>
    orderlyAll body && orderlyCatches catches && orderly finalizer
  | _ => true

def orderlyAll : List Stmt → Bool
  | [] => true
  | stmt :: rest => orderly stmt && orderlyAll rest

def orderlyElseIfs : List ElseIf → Bool
  | [] => true
  | .mk _ _ body :: rest => orderly body && orderlyElseIfs rest

def orderlyCases : List Case → Bool
  | [] => true
  | .test _ _ body :: rest => orderlyCase body && orderlyCases rest
  | .fallback _ body :: rest => orderlyCase body && orderlyCases rest

def orderlyCase : List Stmt → Bool
  | [] => true
  | .breaks _ :: rest => orderlyCase rest
  | stmt :: rest => orderly stmt && orderlyCase rest

def orderlyCatches : List Catch → Bool
  | [] => true
  | .mk _ _ _ _ body :: rest => orderlyAll body && orderlyCatches rest

end

private theorem orderly_of_mem_elseIfs {elseIfs : List ElseIf} (h : orderlyElseIfs elseIfs = true)
    {e : ElseIf} (hmem : e ∈ elseIfs) : orderly (elseIfBody e) = true := by
  induction elseIfs with
  | nil => cases hmem
  | cons e' rest ih =>
    obtain ⟨_, _, _⟩ := e'
    rw [orderlyElseIfs, Bool.and_eq_true] at h
    rcases List.mem_cons.mp hmem with rfl | hmem
    · exact h.1
    · exact ih h.2 hmem

private theorem orderly_of_mem_catches {catches : List Catch} (h : orderlyCatches catches = true)
    {c : Catch} (hmem : c ∈ catches) : orderlyAll (catchBody c) = true := by
  induction catches with
  | nil => cases hmem
  | cons c' rest ih =>
    obtain ⟨_, _, _, _, _⟩ := c'
    rw [orderlyCatches, Bool.and_eq_true] at h
    rcases List.mem_cons.mp hmem with rfl | hmem
    · exact h.1
    · exact ih h.2 hmem

private theorem orderlyCase_cons {stmt : Stmt} {rest : List Stmt} :
    orderlyCase (stmt :: rest) = true ↔
      (isBreak stmt = true ∨ orderly stmt = true) ∧ orderlyCase rest = true := by
  cases stmt <;> simp [orderlyCase, isBreak]

private theorem orderly_of_not_break {stmt : Stmt} {rest : List Stmt} (hb : isBreak stmt = false)
    (ho : orderlyCase (stmt :: rest) = true) : orderly stmt = true := by
  simpa [hb] using (orderlyCase_cons.mp ho).1

private theorem orderlyCase_append {as bs : List Stmt} :
    orderlyCase (as ++ bs) = true ↔ orderlyCase as = true ∧ orderlyCase bs = true := by
  induction as with
  | nil => simp [orderlyCase]
  | cons a as ih => rw [List.cons_append, orderlyCase_cons, orderlyCase_cons, ih, and_assoc]

private theorem orderlyCases_iff {cases : List Case} :
    orderlyCases cases = true ↔ orderlyCase (cases.flatMap caseBody) = true := by
  induction cases with
  | nil => simp [orderlyCases, orderlyCase]
  | cons c rest ih =>
    rw [List.flatMap_cons, orderlyCase_append, ← ih]
    cases c <;> simp [orderlyCases, caseBody]

private theorem orderlyCase_of_suffix {cases after : List Case} (h : orderlyCases cases = true)
    (hsuffix : after <:+ cases) : orderlyCase (after.flatMap caseBody) = true := by
  obtain ⟨before, rfl⟩ := hsuffix
  rw [orderlyCases_iff, List.flatMap_append, orderlyCase_append] at h
  exact h.2

mutual

/-- A path through an orderly statement is one however other jumps are taken. -/
theorem Path.congr {j k : Jumps} {stmt : Stmt} {es : List Stmt} {x : Exit} :
    Path j stmt es x → orderly stmt = true → Path k stmt es x
  | .empty, _ => .empty
  | .expr, _ => .expr
  | .echo, _ => .echo
  | .globals, _ => .globals
  | .statics, _ => .statics
  | .includes, _ => .includes
  | .returns, _ => .returns
  | .throws, _ => .throws
  | .block h, ho => by
    rw [orderly] at ho
    exact .block (h.congr ho)
  | .yes h, ho => by
    rw [orderly, Bool.and_eq_true, Bool.and_eq_true] at ho
    exact .yes (h.congr ho.1.1)
  | .elseIf hmem h, ho => by
    rw [orderly, Bool.and_eq_true, Bool.and_eq_true] at ho
    exact .elseIf hmem (h.congr (orderly_of_mem_elseIfs ho.1.2 hmem))
  | .no h, ho => by
    rw [orderly, Bool.and_eq_true, Bool.and_eq_true] at ho
    exact .no (h.congr ho.2)
  | .whileSkip, _ => .whileSkip
  | .whileOnce h, ho => by
    rw [orderly] at ho
    exact .whileOnce (h.congr ho)
  | .forSkip, _ => .forSkip
  | .forOnce h, ho => by
    rw [orderly] at ho
    exact .forOnce (h.congr ho)
  | .foreachSkip, _ => .foreachSkip
  | .foreachOnce h, ho => by
    rw [orderly] at ho
    exact .foreachOnce (h.congr ho)
  | .doOnce h, ho => by
    rw [orderly] at ho
    exact .doOnce (h.congr ho)
  | .enter hne hsuffix h, ho => by
    rw [orderly] at ho
    exact .enter hne hsuffix (h.congr (orderlyCase_of_suffix ho hsuffix))
  | .skip h, _ => .skip h
  | .tried h hfin, ho => by
    rw [orderly, Bool.and_eq_true, Bool.and_eq_true] at ho
    exact .tried (h.congr ho.1.1) (hfin.congr ho.2)
  | .caught hmem h hfin, ho => by
    rw [orderly, Bool.and_eq_true, Bool.and_eq_true] at ho
    exact .caught hmem (h.congr (orderly_of_mem_catches ho.1.2 hmem)) (hfin.congr ho.2)

theorem PathAll.congr {j k : Jumps} {body : List Stmt} {es : List Stmt} {x : Exit} :
    PathAll j body es x → orderlyAll body = true → PathAll k body es x
  | .done, _ => .done
  | .stop h hx, ho => by
    rw [orderlyAll, Bool.and_eq_true] at ho
    exact .stop (h.congr ho.1) hx
  | .next h hrest, ho => by
    rw [orderlyAll, Bool.and_eq_true] at ho
    exact .next (h.congr ho.1) (hrest.congr ho.2)

theorem PathCase.congr {j k : Jumps} {body : List Stmt} {es : List Stmt} {x : Exit} :
    PathCase j body es x → orderlyCase body = true → PathCase k body es x
  | .done, _ => .done
  | .breaks, _ => .breaks
  | .stop hb h hx, ho => .stop hb (h.congr (orderly_of_not_break hb ho)) hx
  | .next hb h hrest, ho =>
    .next hb (h.congr (orderly_of_not_break hb ho)) (hrest.congr (orderlyCase_cons.mp ho).2)

end

end PhpTypes.Inference
