import PhpTypes.Doc.Meaning
import PhpTypes.Proofs.ParserRuns

/-!
# The grammar of type expressions

The grammar as a type of derivations, with one constructor for each rule. The parser of type
expressions reads the tokens of every derivation, and it reads nothing else. So a list of tokens has
at most one tree, and it has one exactly if it can be derived.
-/

namespace PhpTypes.Doc

open TokenParser TypeParser

/-- The symbols of the grammar; `others s c` is any number of parts `c`, each after the
token `s`. -/
inductive Nonterminal where
  | union | intersection | listed | primary | atom | items | item | key
  | others (separator : TypeToken) (part : Nonterminal)

/-- The derivations from a symbol of the grammar. -/
inductive Derivation : Nonterminal → Type where
  | union (first : Derivation .intersection) (more : Derivation (.others .bar .intersection)) :
    Derivation .union
  | intersection (first : Derivation .listed) (more : Derivation (.others .amp .listed)) :
    Derivation .intersection
  | primary (t : Derivation .primary) : Derivation .listed
  | listOf (t : Derivation .listed) : Derivation .listed
  | atom (t : Derivation .atom) : Derivation .primary
  | nullable (t : Derivation .atom) : Derivation .primary
  | named (name : String) : Derivation .atom
  | generic (name : String) (first : Derivation .union)
      (more : Derivation (.others .comma .union)) : Derivation .atom
  | emptyShape (name : String) : Derivation .atom
  | shape (name : String) (body : Derivation .items) : Derivation .atom
  | parens (t : Derivation .union) : Derivation .atom
  | items (first : Derivation .item) (more : Derivation (.others .comma .item))
      (trailing : Bool) : Derivation .items
  | keyed (key : Derivation .key) (isOptional : Bool) (t : Derivation .union) : Derivation .item
  | value (t : Derivation .union) : Derivation .item
  | nameKey (name : String) : Derivation .key
  | intKey (n : Int) : Derivation .key
  | stringKey (text : String) : Derivation .key
  | noOther {separator : TypeToken} {part : Nonterminal} : Derivation (.others separator part)
  | other {separator : TypeToken} {part : Nonterminal} (next : Derivation part)
      (more : Derivation (.others separator part)) : Derivation (.others separator part)

/-- A token that may be there. -/
def TypeToken.ifAny (t : TypeToken) (present : Bool) : List TypeToken := if present then [t] else []

namespace Derivation

/-- The tokens at the leaves. -/
@[simp]
def tokens : {c : Nonterminal} → Derivation c → List TypeToken
  | _, .union first more => first.tokens ++ more.tokens
  | _, .intersection first more => first.tokens ++ more.tokens
  | _, .primary t => t.tokens
  | _, .listOf t => t.tokens ++ [.lsqb, .rsqb]
  | _, .atom t => t.tokens
  | _, .nullable t => .qmark :: t.tokens
  | _, .named name => [.name name]
  | _, .generic name first more => .name name :: .lt :: (first.tokens ++ more.tokens ++ [.gt])
  | _, .emptyShape name => [.name name, .lbrace, .rbrace]
  | _, .shape name body => .name name :: .lbrace :: (body.tokens ++ [.rbrace])
  | _, .parens t => .lpar :: (t.tokens ++ [.rpar])
  | _, .items first more trailing =>
    first.tokens ++ more.tokens ++ TypeToken.comma.ifAny trailing
  | _, .keyed key isOptional t =>
    key.tokens ++ TypeToken.qmark.ifAny isOptional ++ .colon :: t.tokens
  | _, .value t => t.tokens
  | _, .nameKey name => [.name name]
  | _, .intKey n => [.int n]
  | _, .stringKey text => [.string text]
  | _, .noOther => []
  | _, @other separator _ next more => separator :: (next.tokens ++ more.tokens)

end Derivation

/-- What a symbol of the grammar stands for in a tree. -/
def Nonterminal.Tree : Nonterminal → Type
  | .union | .intersection | .listed | .primary | .atom => TypeExpr
  | .items => List ShapeEntry
  | .item => ShapeEntry
  | .key => Key
  | .others _ c => List c.Tree

/-- A part that stands alone is not wrapped. -/
def inlined {α : Type} (make : List α → α) (first : α) : List α → α
  | [] => first
  | more => make (first :: more)

/-- The tree of a derivation. Rules with a single part, parentheses and punctuation leave no trace
in it. -/
def Derivation.tree : {c : Nonterminal} → Derivation c → c.Tree
  | _, .union first more => inlined TypeExpr.union first.tree more.tree
  | _, .intersection first more => inlined TypeExpr.intersection first.tree more.tree
  | _, .primary t => t.tree
  | _, .listOf t => TypeExpr.listOf t.tree
  | _, .atom t => t.tree
  | _, .nullable t => TypeExpr.nullable t.tree
  | _, .named name => TypeExpr.named name
  | _, .generic name first more => TypeExpr.generic name (first.tree :: more.tree)
  | _, .emptyShape name => TypeExpr.shape name []
  | _, .shape name body => TypeExpr.shape name body.tree
  | _, .parens t => t.tree
  | _, .items first more _ => List.cons first.tree more.tree
  | _, .keyed key isOptional t => ShapeEntry.keyed key.tree isOptional t.tree
  | _, .value t => ShapeEntry.positional t.tree
  | _, .nameKey name => Key.str name
  | _, .intKey n => Key.int n
  | _, .stringKey text => Key.str text
  | _, .noOther => List.nil
  | _, .other next more => List.cons next.tree more.tree

/-! The parser of each symbol. -/

def keyParser : TypeParser Key := fun ts =>
  match ts with
  | t :: rest => (keyOf? t).map fun k => (k, rest)
  | [] => none

def itemsParser (atom : TypeParser TypeExpr) : TypeParser (List ShapeEntry) := do
  let items ← separated (entry atom) (tok .comma)
  let _ ← acceptsTok .comma
  return items

/-- The parser of a symbol, with at most so many brackets inside one another. -/
def Nonterminal.parser (depth : Nat) : (c : Nonterminal) → TypeParser c.Tree
  | .union => TypeParser.union (TypeParser.atom depth)
  | .intersection => joined (TypeParser.listed (TypeParser.atom depth)) .amp .intersection
  | .listed => TypeParser.listed (TypeParser.atom depth)
  | .primary => TypeParser.primary (TypeParser.atom depth)
  | .atom => TypeParser.atom depth
  | .items => itemsParser (TypeParser.atom depth)
  | .item => entry (TypeParser.atom depth)
  | .key => keyParser
  | .others separator c => many (tok separator *> c.parser depth)

private theorem tok_run (t : TypeToken) (rest : List TypeToken) :
    tok t (t :: rest) = some (t, rest) :=
  oneOf_run (beq_self_eq_true t)

private theorem acceptsTok_run (t : TypeToken) (rest : List TypeToken) :
    acceptsTok t (t :: rest) = some (true, rest) :=
  accepts_run (beq_self_eq_true t)

/-- No token of the list comes next. -/
def Avoids (unwanted : List TypeToken) (ts : List TypeToken) : Prop :=
  ∀ t ∈ ts.head?, t ∉ unwanted

theorem Avoids.mono {us vs ts : List TypeToken} (h : Avoids vs ts) (hsub : us ⊆ vs) :
    Avoids us ts := fun t ht hmem => h t ht (hsub hmem)

private theorem avoids_cons {us ts : List TypeToken} {t : TypeToken} (h : t ∉ us) :
    Avoids us (t :: ts) := by
  rintro _ ⟨⟩
  exact h

theorem Avoids.tok {us ts : List TypeToken} (h : Avoids us ts) {t : TypeToken} (ht : t ∈ us) :
    tok t ts = none := by
  apply oneOf_run_none
  intro u hu
  have hne : u ≠ t := fun heq => h u hu (heq ▸ ht)
  simpa using hne

theorem Avoids.acceptsTok {us ts : List TypeToken} (h : Avoids us ts) {t : TypeToken}
    (ht : t ∈ us) : acceptsTok t ts = some (false, ts) := by
  apply accepts_run_false
  intro u hu
  have hne : u ≠ t := fun heq => h u hu (heq ▸ ht)
  simpa using hne

/-- The tokens that would make a phrase of a symbol longer. -/
def Nonterminal.extending : Nonterminal → List TypeToken
  | .union => [.bar, .amp, .lsqb, .lt, .lbrace]
  | .intersection => [.amp, .lsqb, .lt, .lbrace]
  | .listed => [.lsqb, .lt, .lbrace]
  | .item => [.bar, .amp, .lsqb, .lt, .lbrace, .colon, .qmark]
  | _ => [.lt, .lbrace]

/-! Derivations are read. -/

private theorem joined_run {p : TypeParser TypeExpr} {operator : TypeToken}
    {make : List TypeExpr → TypeExpr} {ts mid rest : List TypeToken} {t : TypeExpr}
    {more : List TypeExpr} (hfirst : p ts = some (t, mid))
    (hmore : Repeats (tok operator *> p) mid more rest) :
    joined p operator make ts = some (inlined make t more, rest) := by
  rw [joined, bind_run (hmore.separated hfirst)]
  cases more <;> rfl

/-- How the tokens of a derivation from a symbol are read, whatever comes after them. -/
def Nonterminal.Reads (depth : Nat) : (c : Nonterminal) → List TypeToken → c.Tree → Prop
  -- Brackets that follow belong to the list, so they are read with it.
  | .listed, ts, t => ∀ rest mid brackets, Avoids [.lt, .lbrace] mid →
    Repeats (tok .lsqb *> tok .rsqb) mid brackets rest →
    TypeParser.listed (TypeParser.atom depth) (ts ++ mid) =
      some (brackets.foldl (fun t _ => .listOf t) t, rest)
  | .items, ts, es => ∀ rest,
    itemsParser (TypeParser.atom depth) (ts ++ .rbrace :: rest) = some (es, .rbrace :: rest)
  | .others separator c, ts, as =>
    (∀ us a rest, c.Reads depth us a → Avoids c.extending rest →
      c.parser depth (us ++ rest) = some (a, rest)) →
    separator ∉ c.extending → ∀ rest, Avoids c.extending rest →
    (tok separator *> c.parser depth) rest = none →
    Repeats (tok separator *> c.parser depth) (ts ++ rest) as rest
  | .key, ts, k => ∃ t, ts = [t] ∧ keyOf? t = some k
  | .union, ts, t => ∀ rest, Avoids (extending .union) rest →
    parser depth .union (ts ++ rest) = some (t, rest)
  | .intersection, ts, t => ∀ rest, Avoids (extending .intersection) rest →
    parser depth .intersection (ts ++ rest) = some (t, rest)
  | .primary, ts, t => ∀ rest, Avoids (extending .primary) rest →
    parser depth .primary (ts ++ rest) = some (t, rest)
  | .atom, ts, t => ∀ rest, Avoids (extending .atom) rest →
    parser depth .atom (ts ++ rest) = some (t, rest)
  | .item, ts, e => ∀ rest, Avoids (extending .item) rest →
    parser depth .item (ts ++ rest) = some (e, rest)

theorem Derivation.avoids {separator : TypeToken} {c : Nonterminal}
    (d : Derivation (.others separator c)) {us rest : List TypeToken} (hs : separator ∉ us)
    (h : Avoids us rest) : Avoids us (d.tokens ++ rest) := by
  cases d with
  | noOther => exact h
  | other next more => exact avoids_cons hs

/-- The first two tokens are no key before a colon or a mark. -/
def Opens (ts : List TypeToken) : Prop :=
  ∃ t rest, ts = t :: rest ∧ (keyOf? t = none ∨ Avoids [.colon, .qmark] rest)

theorem Opens.entryKey {ts : List TypeToken} (h : Opens ts) : entryKey ts = none := by
  obtain ⟨t, rest, rfl, hkey | hrest⟩ := h
  · unfold TypeParser.entryKey
    split <;> simp_all
  · cases rest with
    | nil => rfl
    | cons u rest =>
      have hu := hrest u rfl
      simp only [List.mem_cons, List.not_mem_nil, or_false, not_or] at hu
      unfold TypeParser.entryKey
      split <;> simp_all

/-- An expression does not look like a key. -/
def Nonterminal.OpensLike : (c : Nonterminal) → List TypeToken → Prop
  | .union, ts | .intersection, ts | .listed, ts | .primary, ts | .atom, ts =>
    ∀ rest, Avoids [.colon, .qmark] rest → Opens (ts ++ rest)
  | _, _ => True

theorem Derivation.opensLike {c : Nonterminal} (d : Derivation c) : c.OpensLike d.tokens := by
  induction d with
  | union first more ihfirst _ =>
    intro rest hrest
    rw [tokens, List.append_assoc]
    exact ihfirst _ (more.avoids (by decide) hrest)
  | intersection first more ihfirst _ =>
    intro rest hrest
    rw [tokens, List.append_assoc]
    exact ihfirst _ (more.avoids (by decide) hrest)
  | primary t ih => exact ih
  | listOf t ih =>
    intro rest hrest
    rw [tokens, List.append_assoc]
    exact ih _ (avoids_cons (by decide))
  | atom t ih => exact ih
  | nullable t _ => exact fun rest _ => ⟨.qmark, t.tokens ++ rest, rfl, .inl rfl⟩
  | named name => exact fun rest hrest => ⟨.name name, rest, rfl, .inr hrest⟩
  | generic name first more _ _ =>
    exact fun rest _ => ⟨.name name, _, rfl, .inr (avoids_cons (by decide))⟩
  | emptyShape name => exact fun rest _ => ⟨.name name, _, rfl, .inr (avoids_cons (by decide))⟩
  | shape name body _ => exact fun rest _ => ⟨.name name, _, rfl, .inr (avoids_cons (by decide))⟩
  | parens t _ => exact fun rest _ => ⟨.lpar, _, rfl, .inl rfl⟩
  | _ => trivial

private theorem atom_run_rbrace (depth : Nat) (rest : List TypeToken) :
    TypeParser.atom depth (.rbrace :: rest) = none := by
  cases depth with
  | zero => rfl
  | succ depth =>
    have hlpar : acceptsTok .lpar (.rbrace :: rest) = some (false, .rbrace :: rest) := rfl
    rw [TypeParser.atom, bind_run hlpar]
    rfl

/-- A closing brace starts no entry. -/
theorem entry_run_rbrace (depth : Nat) (rest : List TypeToken) :
    entry (TypeParser.atom depth) (.rbrace :: rest) = none := by
  have hprimary : TypeParser.primary (TypeParser.atom depth) (.rbrace :: rest) = none := by
    have hqmark : acceptsTok .qmark (.rbrace :: rest) = some (false, .rbrace :: rest) := rfl
    rw [TypeParser.primary, bind_run hqmark]
    exact atom_run_rbrace depth rest
  have hunion : TypeParser.union (TypeParser.atom depth) (.rbrace :: rest) = none := by
    rw [TypeParser.union, joined, bind_run_none]
    rw [separated, bind_run_none]
    rw [joined, bind_run_none]
    rw [separated, bind_run_none]
    rw [TypeParser.listed, bind_run_none hprimary]
  have hkey : entryKey (.rbrace :: rest) = none :=
    Opens.entryKey ⟨.rbrace, rest, rfl, .inl rfl⟩
  rw [entry, orElse_run_none (bind_run_none hkey), bind_run_none hunion]

private theorem entry_run_keyed {depth : Nat} {ts rest : List TypeToken} {t : TypeToken} {k : Key}
    (hkey : keyOf? t = some k) (isOptional : Bool) {e : TypeExpr}
    (h : TypeParser.union (TypeParser.atom depth) ts = some (e, rest)) :
    entry (TypeParser.atom depth) (t :: (TypeToken.qmark.ifAny isOptional ++ .colon :: ts)) =
      some (.keyed k isOptional e, rest) := by
  have hentry : entryKey (t :: (TypeToken.qmark.ifAny isOptional ++ .colon :: ts)) =
      some ((k, isOptional), ts) := by
    cases isOptional <;> simp [TypeToken.ifAny, TypeParser.entryKey, hkey]
  rw [entry]
  apply orElse_run
  rw [bind_run hentry]
  change (TypeParser.union (TypeParser.atom depth) >>= fun e => pure _) ts = _
  rw [bind_run h, pure_run]

private theorem entry_run_value {depth : Nat} {ts rest : List TypeToken} (hopens : Opens ts)
    {e : TypeExpr} (h : TypeParser.union (TypeParser.atom depth) ts = some (e, rest)) :
    entry (TypeParser.atom depth) ts = some (.positional e, rest) := by
  rw [entry, orElse_run_none (bind_run_none hopens.entryKey), bind_run h, pure_run]

/-- Entries end before a closing brace, with or without a comma in front of it. -/
theorem itemsParser_run {depth : Nat} {ts mid rest : List TypeToken} {e : ShapeEntry}
    {es : List ShapeEntry} (trailing : Bool)
    (hfirst : entry (TypeParser.atom depth) ts = some (e, mid))
    (hmore : Repeats (tok .comma *> entry (TypeParser.atom depth)) mid es
      (TypeToken.comma.ifAny trailing ++ .rbrace :: rest)) :
    itemsParser (TypeParser.atom depth) ts = some (e :: es, .rbrace :: rest) := by
  have hcomma : acceptsTok .comma (TypeToken.comma.ifAny trailing ++ .rbrace :: rest) =
      some (trailing, .rbrace :: rest) := by
    cases trailing <;> rfl
  rw [itemsParser, bind_run (hmore.separated hfirst), bind_run hcomma, pure_run]

private theorem tok_comma_run_none (depth : Nat) (trailing : Bool) (rest : List TypeToken) :
    (tok .comma *> entry (TypeParser.atom depth))
      (TypeToken.comma.ifAny trailing ++ .rbrace :: rest) = none := by
  cases trailing with
  | false => exact seqRight_run_none rfl
  | true =>
    rw [TypeToken.ifAny, if_pos rfl, List.singleton_append, seqRight_run (tok_run .comma _)]
    exact entry_run_rbrace depth rest

private theorem entries_run_nil (depth : Nat) (rest : List TypeToken) :
    entries (TypeParser.atom depth) (.rbrace :: rest) = some ([], rest) := by
  rw [entries, bind_run (acceptsTok_run .rbrace rest)]
  rfl

private theorem entries_eq (atom : TypeParser TypeExpr) {ts : List TypeToken}
    (h : Avoids [.rbrace] ts) : entries atom ts = (do
      let es ← itemsParser atom
      let _ ← tok .rbrace
      return es : TypeParser (List ShapeEntry)) ts := by
  have hrbrace : acceptsTok .rbrace ts = some (false, ts) := h.acceptsTok (by simp)
  rw [entries, bind_run hrbrace, itemsParser]
  simp

private theorem entries_run {depth : Nat} {ts rest : List TypeToken} {es : List ShapeEntry}
    (hts : Avoids [.rbrace] ts)
    (h : itemsParser (TypeParser.atom depth) ts = some (es, .rbrace :: rest)) :
    entries (TypeParser.atom depth) ts = some (es, rest) := by
  rw [entries_eq _ hts, bind_run h, bind_run (tok_run .rbrace rest), pure_run]

private theorem listed_run {atom : TypeParser TypeExpr} {ts mid rest brackets : List TypeToken}
    {t : TypeExpr} (h : primary atom ts = some (t, mid))
    (hbrackets : Repeats (tok .lsqb *> tok .rsqb) mid brackets rest) :
    listed atom ts = some (brackets.foldl (fun t _ => .listOf t) t, rest) := by
  rw [listed, bind_run h, bind_run hbrackets.many, pure_run]

private theorem primary_run_nullable {atom : TypeParser TypeExpr} {ts rest : List TypeToken}
    {t : TypeExpr} (h : atom ts = some (t, rest)) :
    primary atom (.qmark :: ts) = some (.nullable t, rest) := by
  rw [primary, bind_run (acceptsTok_run .qmark ts), if_pos rfl, bind_run h, pure_run]

private theorem primary_run_atom {atom : TypeParser TypeExpr} {ts : List TypeToken}
    (h : Avoids [.qmark, .rbrace] ts) : primary atom ts = atom ts := by
  rw [primary, bind_run (h.acceptsTok (by simp)), if_neg (by decide)]

private theorem atom_run_generic {depth : Nat} (name : String) {ts mid rest : List TypeToken}
    {t : TypeExpr} {more : List TypeExpr}
    (hfirst : TypeParser.union (TypeParser.atom depth) ts = some (t, mid))
    (hmore : Repeats (tok .comma *> TypeParser.union (TypeParser.atom depth)) mid more
      (.gt :: rest)) :
    TypeParser.atom (depth + 1) (.name name :: .lt :: ts) =
      some (.generic name (t :: more), rest) := by
  have hlpar : acceptsTok .lpar (.name name :: .lt :: ts) = some (false, .name name :: .lt :: ts) :=
    rfl
  have hname : anyName (.name name :: .lt :: ts) = some (name, .lt :: ts) := rfl
  rw [TypeParser.atom, bind_run hlpar, if_neg (by decide), bind_run hname,
    bind_run (acceptsTok_run .lt ts), if_pos rfl, bind_run (hmore.separated hfirst),
    bind_run (tok_run .gt rest), pure_run]

private theorem atom_run_shape {depth : Nat} (name : String) {ts rest : List TypeToken}
    {es : List ShapeEntry} (h : entries (TypeParser.atom depth) ts = some (es, rest)) :
    TypeParser.atom (depth + 1) (.name name :: .lbrace :: ts) = some (.shape name es, rest) := by
  have hlpar : acceptsTok .lpar (.name name :: .lbrace :: ts) =
      some (false, .name name :: .lbrace :: ts) := rfl
  have hname : anyName (.name name :: .lbrace :: ts) = some (name, .lbrace :: ts) := rfl
  have hlt : acceptsTok .lt (.lbrace :: ts) = some (false, .lbrace :: ts) := rfl
  rw [TypeParser.atom, bind_run hlpar, if_neg (by decide), bind_run hname, bind_run hlt,
    if_neg (by decide), bind_run (acceptsTok_run .lbrace ts), if_pos rfl, bind_run h, pure_run]

private theorem atom_run_named {depth : Nat} (name : String) {rest : List TypeToken}
    (h : Avoids [.lt, .lbrace] rest) :
    TypeParser.atom (depth + 1) (.name name :: rest) = some (.named name, rest) := by
  have hlpar : acceptsTok .lpar (.name name :: rest) = some (false, .name name :: rest) := rfl
  have hname : anyName (.name name :: rest) = some (name, rest) := rfl
  have hlt : acceptsTok .lt rest = some (false, rest) := h.acceptsTok (by simp)
  have hlbrace : acceptsTok .lbrace rest = some (false, rest) := h.acceptsTok (by simp)
  rw [TypeParser.atom, bind_run hlpar, if_neg (by decide), bind_run hname, bind_run hlt,
    if_neg (by decide), bind_run hlbrace, if_neg (by decide), pure_run]

private theorem atom_run_parens {depth : Nat} {ts rest : List TypeToken} {t : TypeExpr}
    (h : TypeParser.union (TypeParser.atom depth) ts = some (t, .rpar :: rest)) :
    TypeParser.atom (depth + 1) (.lpar :: ts) = some (t, rest) := by
  rw [TypeParser.atom, bind_run (acceptsTok_run .lpar ts), if_pos rfl, bind_run h,
    bind_run (tok_run .rpar rest), pure_run]

/-- What the first token of a phrase can be. -/
def Nonterminal.Starts : Nonterminal → List TypeToken → Prop
  | .others _ _, _ => True
  | .atom, ts => ∀ rest, Avoids [.qmark, .rbrace] (ts ++ rest)
  | _, ts => ∀ rest, Avoids [.rbrace] (ts ++ rest)

theorem Derivation.starts {c : Nonterminal} (d : Derivation c) : c.Starts d.tokens := by
  induction d with
  | union first more ihfirst _ =>
    intro rest
    rw [tokens, List.append_assoc]
    exact ihfirst _
  | intersection first more ihfirst _ =>
    intro rest
    rw [tokens, List.append_assoc]
    exact ihfirst _
  | primary t ih => exact ih
  | listOf t ih =>
    intro rest
    rw [tokens, List.append_assoc]
    exact ih _
  | atom t ih => exact fun rest => (ih rest).mono (by decide)
  | items first more trailing ihfirst _ =>
    intro rest
    rw [tokens, List.append_assoc, List.append_assoc]
    exact ihfirst _
  | keyed key isOptional t ihkey _ =>
    intro rest
    rw [tokens, List.append_assoc, List.append_assoc]
    exact ihkey _
  | value t ih => exact ih
  | noOther => trivial
  | other next more _ _ => trivial
  | _ => exact fun rest => avoids_cons (by simp)

theorem Derivation.reads {c : Nonterminal} (d : Derivation c) (depth : Nat)
    (hdepth : d.tokens.length < depth) : c.Reads depth d.tokens d.tree := by
  induction d generalizing depth with
  | union first more ihfirst ihmore =>
    rw [tokens, List.length_append] at hdepth
    intro rest hrest
    rw [tokens, List.append_assoc]
    have hinner : Avoids (Nonterminal.extending .intersection) rest := hrest.mono (by decide)
    have hstop : (tok .bar *> Nonterminal.parser depth .intersection) rest = none :=
      seqRight_run_none (hrest.tok (by decide))
    have hmore := ihmore depth (by omega) (fun _ _ rest h => h rest) (by decide) rest hinner hstop
    exact joined_run (ihfirst depth (by omega) _ (more.avoids (by decide) hinner)) hmore
  | intersection first more ihfirst ihmore =>
    rw [tokens, List.length_append] at hdepth
    intro rest hrest
    rw [tokens, List.append_assoc]
    have hinner : Avoids (Nonterminal.extending .listed) rest := hrest.mono (by decide)
    have hlisted : ∀ us t rest, Nonterminal.Reads depth .listed us t →
        Avoids (Nonterminal.extending .listed) rest →
        Nonterminal.parser depth .listed (us ++ rest) = some (t, rest) := by
      intro us t rest h hrest
      have hstop : (tok .lsqb *> tok .rsqb) rest = none :=
        seqRight_run_none (hrest.tok (by decide))
      exact h rest rest [] (hrest.mono (by decide)) (.stop hstop)
    have hstop : (tok .amp *> Nonterminal.parser depth .listed) rest = none :=
      seqRight_run_none (hrest.tok (by decide))
    have hmore := ihmore depth (by omega) hlisted (by decide) rest hinner hstop
    have hfirst := hlisted _ _ _ (ihfirst depth (by omega)) (more.avoids (by decide) hinner)
    exact joined_run hfirst hmore
  | primary t ih =>
    intro rest mid brackets hmid hbrackets
    exact listed_run (ih depth hdepth mid hmid) hbrackets
  | listOf t ih =>
    rw [tokens, List.length_append] at hdepth
    intro rest mid brackets hmid hbrackets
    have hpair : (tok .lsqb *> tok .rsqb) (.lsqb :: .rsqb :: mid) = some (.rsqb, mid) := by
      rw [seqRight_run (tok_run .lsqb _), tok_run]
    have hshorter : mid.length < (TypeToken.lsqb :: .rsqb :: mid).length := by
      rw [List.length_cons, List.length_cons]
      omega
    have hmore : Repeats (tok .lsqb *> tok .rsqb) (.lsqb :: .rsqb :: mid) (.rsqb :: brackets)
        rest := .next hpair hshorter hbrackets
    rw [tokens, List.append_assoc]
    exact ih depth (by omega) rest _ _ (avoids_cons (by decide)) hmore
  | atom t ih =>
    intro rest hrest
    exact (primary_run_atom (t.starts rest)).trans (ih depth hdepth rest hrest)
  | nullable t ih =>
    rw [tokens, List.length_cons] at hdepth
    intro rest hrest
    exact primary_run_nullable (ih depth (by omega) rest hrest)
  | named name =>
    obtain ⟨depth, rfl⟩ : ∃ n, depth = n + 1 := ⟨depth - 1, by omega⟩
    exact fun rest hrest => atom_run_named name hrest
  | generic name first more ihfirst ihmore =>
    obtain ⟨depth, rfl⟩ : ∃ n, depth = n + 1 := ⟨depth - 1, by omega⟩
    simp only [tokens, List.length_cons, List.length_append, List.length_nil] at hdepth
    intro rest hrest
    have hgt : Avoids (Nonterminal.extending .union) (.gt :: rest) := avoids_cons (by decide)
    have hstop : (tok .comma *> Nonterminal.parser depth .union) (.gt :: rest) = none :=
      seqRight_run_none rfl
    have hmore := ihmore depth (by omega) (fun _ _ rest h => h rest) (by decide) _ hgt hstop
    have hfirst := ihfirst depth (by omega) _ (more.avoids (by decide) hgt)
    simp only [tokens, List.cons_append, List.append_assoc]
    exact atom_run_generic name hfirst hmore
  | emptyShape name =>
    obtain ⟨depth, rfl⟩ : ∃ n, depth = n + 1 := ⟨depth - 1, by omega⟩
    exact fun rest _ => atom_run_shape name (entries_run_nil depth rest)
  | shape name body ih =>
    obtain ⟨depth, rfl⟩ : ∃ n, depth = n + 1 := ⟨depth - 1, by omega⟩
    simp only [tokens, List.length_cons, List.length_append, List.length_nil] at hdepth
    intro rest hrest
    simp only [tokens, List.cons_append, List.append_assoc]
    exact atom_run_shape name (entries_run (body.starts _) (ih depth (by omega) rest))
  | parens t ih =>
    obtain ⟨depth, rfl⟩ : ∃ n, depth = n + 1 := ⟨depth - 1, by omega⟩
    simp only [tokens, List.length_cons, List.length_append, List.length_nil] at hdepth
    intro rest hrest
    simp only [tokens, List.cons_append, List.append_assoc]
    exact atom_run_parens (ih depth (by omega) _ (avoids_cons (by decide)))
  | items first more trailing ihfirst ihmore =>
    simp only [tokens, List.length_append] at hdepth
    intro rest
    have hend : Avoids (Nonterminal.extending .item)
        (TypeToken.comma.ifAny trailing ++ .rbrace :: rest) := by
      cases trailing <;> exact avoids_cons (by decide)
    have hmore := ihmore depth (by omega) (fun _ _ rest h => h rest) (by decide) _ hend
      (tok_comma_run_none depth trailing rest)
    have hfirst := ihfirst depth (by omega) _ (more.avoids (by decide) hend)
    rw [tokens, List.append_assoc, List.append_assoc]
    exact itemsParser_run trailing hfirst hmore
  | keyed key isOptional t ihkey iht =>
    simp only [tokens, List.length_append, List.length_cons] at hdepth
    intro rest hrest
    obtain ⟨token, htokens, hkey⟩ := ihkey depth (by omega)
    have hvalue := iht depth (by omega) rest (hrest.mono (by decide))
    simp only [tokens, htokens, List.append_assoc, List.cons_append, List.nil_append]
    exact entry_run_keyed hkey isOptional hvalue
  | value t ih =>
    intro rest hrest
    have hvalue := ih depth hdepth rest (hrest.mono (by decide))
    exact entry_run_value (t.opensLike rest (hrest.mono (by decide))) hvalue
  | nameKey name => exact ⟨.name name, rfl, rfl⟩
  | intKey n => exact ⟨.int n, rfl, rfl⟩
  | stringKey text => exact ⟨.string text, rfl, rfl⟩
  | noOther => exact fun _ _ rest _ hstop => .stop hstop
  | @other separator c next more ihnext ihmore =>
    simp only [tokens, List.length_cons, List.length_append] at hdepth
    intro hpart hseparator rest hrest hstop
    have hmore := ihmore depth (by omega) hpart hseparator rest hrest hstop
    have hnext := hpart _ _ _ (ihnext depth (by omega)) (more.avoids hseparator hrest)
    simp only [tokens, List.cons_append, List.append_assoc]
    refine .next (?_ : _ = some (next.tree, more.tokens ++ rest)) ?_ hmore
    · rw [seqRight_run (tok_run separator _), hnext]
    · simp only [List.length_cons, List.length_append]
      omega

/-! Whatever is read is derived. -/

/-- Every result of a parser is the tree of a derivation, from the tokens that it took. -/
def Nonterminal.Sound (c : Nonterminal) (p : TypeParser c.Tree) : Prop :=
  ∀ ts a rest, p ts = some (a, rest) → ∃ d : Derivation c, ts = d.tokens ++ rest ∧ d.tree = a

private theorem tok_eq_some {t u : TypeToken} {ts rest : List TypeToken}
    (h : tok t ts = some (u, rest)) : ts = t :: rest := by
  obtain ⟨rfl, hwanted⟩ := oneOf_eq_some h
  rw [eq_of_beq hwanted]

private theorem acceptsTok_eq_some {t : TypeToken} {b : Bool} {ts rest : List TypeToken}
    (h : acceptsTok t ts = some (b, rest)) : ts = t.ifAny b ++ rest := by
  rcases accepts_eq_some h with ⟨rfl, u, rfl, hwanted⟩ | ⟨rfl, rfl, -⟩
  · rw [eq_of_beq hwanted]
    rfl
  · rfl

private theorem sound_others {c : Nonterminal} {p : TypeParser c.Tree} (hp : c.Sound p)
    (separator : TypeToken) :
    (Nonterminal.others separator c).Sound (many (tok separator *> p)) := by
  intro ts as rest h
  apply many_induction (motive := fun ts as rest =>
    ∃ d : Derivation (.others separator c), ts = d.tokens ++ rest ∧ d.tree = as) ?_ ?_ h
  · exact fun ts => ⟨.noOther, rfl, rfl⟩
  · rintro ts a mid as rest hrun ⟨more, rfl, rfl⟩
    obtain ⟨t, middle, htok, hpart⟩ := seqRight_eq_some_iff.mp hrun
    obtain ⟨next, rfl, rfl⟩ := hp middle a _ hpart
    refine ⟨.other next more, ?_, rfl⟩
    rw [tok_eq_some htok, Derivation.tokens, List.cons_append, List.append_assoc]

private theorem joined_eq_some {p : TypeParser TypeExpr} {operator : TypeToken}
    {make : List TypeExpr → TypeExpr} {ts rest : List TypeToken} {t : TypeExpr}
    (h : joined p operator make ts = some (t, rest)) :
    ∃ first more mid, p ts = some (first, mid) ∧
      many (tok operator *> p) mid = some (more, rest) ∧ t = inlined make first more := by
  obtain ⟨all, middle, hall, hmake⟩ := bind_eq_some_iff.mp h
  obtain ⟨first, mid, hfirst, hall⟩ := bind_eq_some_iff.mp hall
  obtain ⟨more, end', hmore, hpure⟩ := bind_eq_some_iff.mp hall
  cases hpure
  refine ⟨first, more, mid, hfirst, ?_⟩
  cases more with
  | nil =>
    cases hmake
    exact ⟨hmore, rfl⟩
  | cons u us =>
    cases hmake
    exact ⟨hmore, rfl⟩

private theorem sound_primary {atom : TypeParser TypeExpr} (hatom : Nonterminal.atom.Sound atom) :
    Nonterminal.primary.Sound (primary atom) := by
  intro ts t rest h
  obtain ⟨mark, mid, hmark, hrun⟩ := bind_eq_some_iff.mp h
  have hts := acceptsTok_eq_some hmark
  cases mark with
  | false =>
    obtain ⟨d, rfl, rfl⟩ := hatom mid t rest hrun
    exact ⟨.atom d, hts, rfl⟩
  | true =>
    obtain ⟨u, middle, hu, hpure⟩ := bind_eq_some_iff.mp hrun
    cases hpure
    obtain ⟨d, rfl, rfl⟩ := hatom mid u rest hu
    exact ⟨.nullable d, hts, rfl⟩

/-- Brackets after a list derive further lists. -/
theorem brackets_derived {brackets mid rest : List TypeToken}
    (h : many (tok .lsqb *> tok .rsqb) mid = some (brackets, rest)) (d : Derivation .listed) :
    ∃ e : Derivation .listed, d.tokens ++ mid = e.tokens ++ rest ∧
      e.tree = brackets.foldl (fun t _ => TypeExpr.listOf t) d.tree := by
  revert d
  apply many_induction (motive := fun mid brackets rest => ∀ d : Derivation .listed,
    ∃ e : Derivation .listed, d.tokens ++ mid = e.tokens ++ rest ∧
      e.tree = brackets.foldl (fun t _ => TypeExpr.listOf t) d.tree) ?_ ?_ h
  · exact fun ts d => ⟨d, rfl, rfl⟩
  · intro ts a mid as rest hrun ih d
    obtain ⟨t, middle, hlsqb, hrsqb⟩ := seqRight_eq_some_iff.mp hrun
    obtain ⟨e, htokens, htree⟩ := ih (.listOf d)
    refine ⟨e, ?_, htree⟩
    rw [tok_eq_some hlsqb, tok_eq_some hrsqb, ← htokens, Derivation.tokens, List.append_assoc]
    rfl

private theorem sound_listed {atom : TypeParser TypeExpr} (hatom : Nonterminal.atom.Sound atom) :
    Nonterminal.listed.Sound (listed atom) := by
  intro ts t rest h
  obtain ⟨first, mid, hfirst, hrun⟩ := bind_eq_some_iff.mp h
  obtain ⟨brackets, middle, hbrackets, hpure⟩ := bind_eq_some_iff.mp hrun
  cases hpure
  obtain ⟨d, rfl, rfl⟩ := sound_primary hatom ts first mid hfirst
  exact brackets_derived hbrackets (.primary d)

private theorem sound_intersection {atom : TypeParser TypeExpr}
    (hatom : Nonterminal.atom.Sound atom) :
    Nonterminal.intersection.Sound (joined (listed atom) .amp .intersection) := by
  intro ts t rest h
  obtain ⟨first, more, mid, hfirst, hmore, rfl⟩ := joined_eq_some h
  obtain ⟨d, rfl, rfl⟩ := sound_listed hatom ts first mid hfirst
  obtain ⟨e, rfl, rfl⟩ := sound_others (sound_listed hatom) .amp mid more rest hmore
  exact ⟨.intersection d e, (List.append_assoc _ _ _).symm, rfl⟩

private theorem sound_union {atom : TypeParser TypeExpr} (hatom : Nonterminal.atom.Sound atom) :
    Nonterminal.union.Sound (TypeParser.union atom) := by
  intro ts t rest h
  obtain ⟨first, more, mid, hfirst, hmore, rfl⟩ := joined_eq_some h
  obtain ⟨d, rfl, rfl⟩ := sound_intersection hatom ts first mid hfirst
  obtain ⟨e, rfl, rfl⟩ := sound_others (sound_intersection hatom) .bar mid more rest hmore
  exact ⟨.union d e, (List.append_assoc _ _ _).symm, rfl⟩

private theorem keyOf?_derived {t : TypeToken} {k : Key} (h : keyOf? t = some k) :
    ∃ d : Derivation .key, d.tokens = [t] ∧ d.tree = k := by
  cases t with
  | name n =>
    cases h
    exact ⟨.nameKey n, rfl, rfl⟩
  | int n =>
    cases h
    exact ⟨.intKey n, rfl, rfl⟩
  | string s =>
    cases h
    exact ⟨.stringKey s, rfl, rfl⟩
  | _ => cases h

private theorem entryKey_eq_some {ts rest : List TypeToken} {k : Key} {isOptional : Bool}
    (h : entryKey ts = some ((k, isOptional), rest)) :
    ∃ t, keyOf? t = some k ∧ ts = t :: (TypeToken.qmark.ifAny isOptional ++ .colon :: rest) := by
  unfold entryKey at h
  split at h
  · rename_i t rest'
    obtain ⟨key, hkey, heq⟩ := Option.map_eq_some_iff.mp h
    cases heq
    exact ⟨t, hkey, rfl⟩
  · rename_i t rest'
    obtain ⟨key, hkey, heq⟩ := Option.map_eq_some_iff.mp h
    cases heq
    exact ⟨t, hkey, rfl⟩
  · cases h

private theorem sound_item {atom : TypeParser TypeExpr} (hatom : Nonterminal.atom.Sound atom) :
    Nonterminal.item.Sound (entry atom) := by
  intro ts e rest h
  rcases orElse_eq_some h with h | h
  · obtain ⟨⟨k, isOptional⟩, mid, hkey, hrun⟩ := bind_eq_some_iff.mp h
    obtain ⟨t, middle, hvalue, hpure⟩ := bind_eq_some_iff.mp hrun
    cases hpure
    obtain ⟨token, htoken, rfl⟩ := entryKey_eq_some hkey
    obtain ⟨key, hkeytokens, rfl⟩ := keyOf?_derived htoken
    obtain ⟨d, rfl, rfl⟩ := sound_union hatom mid t rest hvalue
    refine ⟨.keyed key isOptional d, ?_, rfl⟩
    simp [Derivation.tokens, hkeytokens]
  · obtain ⟨t, middle, hvalue, hpure⟩ := bind_eq_some_iff.mp h
    cases hpure
    obtain ⟨d, rfl, rfl⟩ := sound_union hatom ts t rest hvalue
    exact ⟨.value d, rfl, rfl⟩

private theorem sound_items {atom : TypeParser TypeExpr} (hatom : Nonterminal.atom.Sound atom) :
    Nonterminal.items.Sound (itemsParser atom) := by
  intro ts es rest h
  obtain ⟨all, middle, hall, hrun⟩ := bind_eq_some_iff.mp h
  obtain ⟨trailing, mid', hcomma, hpure⟩ := bind_eq_some_iff.mp hrun
  cases hpure
  obtain ⟨first, mid, hfirst, hmany⟩ := bind_eq_some_iff.mp hall
  obtain ⟨more, mid'', hmore, hpure⟩ := bind_eq_some_iff.mp hmany
  cases hpure
  obtain ⟨d, rfl, rfl⟩ := sound_item hatom ts first mid hfirst
  obtain ⟨e, rfl, rfl⟩ := sound_others (sound_item hatom) .comma mid more _ hmore
  refine ⟨.items d e trailing, ?_, rfl⟩
  rw [acceptsTok_eq_some hcomma]
  simp [Derivation.tokens]

private theorem entries_derived {atom : TypeParser TypeExpr} (hatom : Nonterminal.atom.Sound atom)
    (name : String) {ts rest : List TypeToken} {es : List ShapeEntry}
    (h : entries atom ts = some (es, rest)) :
    ∃ d : Derivation .atom, .name name :: .lbrace :: ts = d.tokens ++ rest ∧
      d.tree = TypeExpr.shape name es := by
  by_cases hts : Avoids [.rbrace] ts
  · rw [entries_eq atom hts] at h
    obtain ⟨all, mid, hitems, hrun⟩ := bind_eq_some_iff.mp h
    obtain ⟨t, middle, hrbrace, hpure⟩ := bind_eq_some_iff.mp hrun
    cases hpure
    obtain ⟨d, rfl, rfl⟩ := sound_items hatom ts _ mid hitems
    refine ⟨.shape name d, ?_, rfl⟩
    rw [tok_eq_some hrbrace]
    simp [Derivation.tokens]
  · obtain ⟨rest', rfl⟩ : ∃ rest', ts = .rbrace :: rest' := by
      cases ts with
      | nil => exact (hts fun _ h => (by cases h)).elim
      | cons t ts =>
        by_cases ht : t = .rbrace
        · exact ⟨ts, by rw [ht]⟩
        · exact (hts (avoids_cons (by simpa using ht))).elim
    obtain ⟨b, mid, hrbrace, hrun⟩ := bind_eq_some_iff.mp h
    rw [acceptsTok_run] at hrbrace
    cases hrbrace
    cases hrun
    exact ⟨.emptyShape name, rfl, rfl⟩

private theorem anyName_eq_some {ts rest : List TypeToken} {name : String}
    (h : anyName ts = some (name, rest)) : ts = .name name :: rest := by
  unfold anyName at h
  split at h
  · cases h
    rfl
  · cases h

private theorem sound_atom (depth : Nat) : Nonterminal.atom.Sound (TypeParser.atom depth) := by
  induction depth with
  | zero =>
    intro ts t rest h
    cases h
  | succ depth ih =>
    intro ts t rest h
    rw [TypeParser.atom] at h
    obtain ⟨paren, mid, hparen, h⟩ := bind_eq_some_iff.mp h
    rw [acceptsTok_eq_some hparen]
    cases paren with
    | true =>
      obtain ⟨u, middle, hu, h⟩ := bind_eq_some_iff.mp h
      obtain ⟨_, _, hrpar, hpure⟩ := bind_eq_some_iff.mp h
      cases hpure
      obtain ⟨d, rfl, rfl⟩ := sound_union ih _ _ _ hu
      refine ⟨.parens d, ?_, rfl⟩
      rw [tok_eq_some hrpar]
      simp [Derivation.tokens, TypeToken.ifAny]
    | false =>
      obtain ⟨name, afterName, hname, h⟩ := bind_eq_some_iff.mp h
      rw [anyName_eq_some hname]
      obtain ⟨angle, afterAngle, hangle, h⟩ := bind_eq_some_iff.mp h
      rw [acceptsTok_eq_some hangle]
      cases angle with
      | true =>
        obtain ⟨args, middle, hargs, h⟩ := bind_eq_some_iff.mp h
        obtain ⟨_, _, hgt, hpure⟩ := bind_eq_some_iff.mp h
        cases hpure
        obtain ⟨first, afterFirst, hfirst, hargs⟩ := bind_eq_some_iff.mp hargs
        obtain ⟨more, _, hmore, hpure⟩ := bind_eq_some_iff.mp hargs
        cases hpure
        obtain ⟨d, rfl, rfl⟩ := sound_union ih _ _ _ hfirst
        obtain ⟨e, rfl, rfl⟩ := sound_others (sound_union ih) .comma _ _ _ hmore
        refine ⟨.generic name d e, ?_, rfl⟩
        rw [tok_eq_some hgt]
        simp [Derivation.tokens, TypeToken.ifAny]
      | false =>
        obtain ⟨brace, afterBrace, hbrace, h⟩ := bind_eq_some_iff.mp h
        rw [acceptsTok_eq_some hbrace]
        cases brace with
        | true =>
          obtain ⟨es, middle, hentries, hpure⟩ := bind_eq_some_iff.mp h
          cases hpure
          exact entries_derived ih name hentries
        | false =>
          cases h
          exact ⟨.named name, rfl, rfl⟩

/-- The trees of a list of tokens are those of its derivations. -/
theorem ofTokens?_eq_some_iff {ts : List TypeToken} {t : TypeExpr} :
    TypeExpr.ofTokens? ts = some t ↔ ∃ d : Derivation .union, d.tokens = ts ∧ d.tree = t := by
  rw [TypeExpr.ofTokens?, complete_eq_some_iff]
  constructor
  · intro h
    obtain ⟨d, hts, htree⟩ := sound_union (sound_atom _) ts t [] h
    exact ⟨d, by rw [hts, List.append_nil], htree⟩
  · rintro ⟨d, rfl, rfl⟩
    have hread := d.reads (d.tokens.length + 1) (Nat.lt_succ_self _) [] (fun _ h => (by cases h))
    rw [List.append_nil] at hread
    exact hread

end PhpTypes.Doc
