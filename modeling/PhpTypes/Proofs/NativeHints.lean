import PhpTypes.Proofs.Correspondence
import PhpTypes.Proofs.ExprTexts
import PhpTypes.Proofs.Lexemes
import PhpTypes.Proofs.ParserResults
import PhpTypes.Proofs.TypeTexts

/-!
# Native declarations of types

A native declaration of a type and a doc expression of the same text mean the same, although the one
is read as a list of names and the other by a grammar of its own. The declarations are those that
the parser makes of tokens.
-/

namespace PhpTypes

namespace Source

/-! Names in declarations. -/

/-- Words that are joined by separators. -/
inductive WordPath : List Char → Prop where
  | last {word : List Char} : NameChars word → WordPath word
  | cons {word path : List Char} :
    NameChars word → WordPath path → WordPath (word ++ '\\' :: path)

private theorem nameChars_take {cs : List Char} (h : wordLength cs ≠ 0) :
    NameChars (cs.take (wordLength cs)) := by
  cases cs with
  | nil => exact (h rfl).elim
  | cons c cs =>
    rw [wordLength] at h ⊢
    split at h
    · rename_i hc
      have htake : cs.take (runLength isNameRest cs) = cs.takeWhile isNameRest :=
        (List.prefix_iff_eq_take.mp (List.takeWhile_prefix isNameRest)).symm
      rw [if_pos hc, Nat.add_comm, List.take_succ_cons, htake]
      exact .mk hc fun d hd => List.mem_takeWhile_imp hd
    · exact (h rfl).elim

private theorem pathLength_separator (fuel : Nat) {rest : List Char} (h : wordLength rest ≠ 0) :
    pathLength (fuel + 1) ('\\' :: rest) =
      wordLength rest + pathLength fuel (rest.drop (wordLength rest)) + 1 := by
  simp only [pathLength, beq_iff_eq, h, if_false]
  omega

/-- Further words are joined by a separator, or there are none. -/
theorem pathLength_cases (fuel : Nat) (cs : List Char) :
    (∃ rest, cs = '\\' :: rest ∧ wordLength rest ≠ 0) ∨ pathLength (fuel + 1) cs = 0 := by
  unfold pathLength
  split
  · rename_i rest
    by_cases hrest : wordLength rest = 0
    · simp [hrest]
    · exact .inl ⟨rest, rfl, hrest⟩
  · exact .inr rfl

private theorem wordPath_take {cs : List Char} (h : wordLength cs ≠ 0) (fuel : Nat) :
    WordPath (cs.take (wordLength cs + pathLength fuel (cs.drop (wordLength cs)))) := by
  induction fuel generalizing cs with
  | zero => exact .last (nameChars_take h)
  | succ fuel ih =>
    rcases pathLength_cases fuel (cs.drop (wordLength cs)) with ⟨rest, hdrop, hrest⟩ | hzero
    · rw [List.take_add, hdrop, pathLength_separator fuel hrest, List.take_succ_cons]
      exact .cons (nameChars_take h) (ih hrest)
    · rw [hzero, Nat.add_zero]
      exact .last (nameChars_take h)

private theorem wordPath_relativeName {cs : List Char} (h : relativeNameLength cs ≠ 0) :
    WordPath (cs.take (relativeNameLength cs)) := by
  unfold relativeNameLength at h ⊢
  simp only at h ⊢
  split at h
  · exact (h rfl).elim
  · rename_i hword
    rw [if_neg hword]
    exact wordPath_take (by simpa using hword) _

theorem WordPath.head {cs : List Char} (h : WordPath cs) :
    ∃ c rest, cs = c :: rest ∧ isNameStart c = true := by
  cases h with
  | last hword =>
    obtain ⟨hc, -⟩ := hword
    exact ⟨_, _, rfl, hc⟩
  | cons hword _ =>
    obtain ⟨hc, -⟩ := hword
    exact ⟨_, _, rfl, hc⟩

/-- A name that the lexer takes is a path of words once the separator in front is gone. -/
theorem wordPath_plainName {cs : List Char} (h : nameLength cs ≠ 0) :
    WordPath (plainName (String.ofList (cs.take (nameLength cs)))).toList := by
  have hplain : ∀ {path : List Char}, WordPath path → path.dropWhile (· == '\\') = path := by
    intro path hpath
    obtain ⟨c, rest, rfl, hc⟩ := hpath.head
    apply List.dropWhile_cons_of_neg
    intro hseparator
    rw [beq_iff_eq] at hseparator
    rw [hseparator] at hc
    cases hc
  rw [plainName, String.toList_ofList, String.toList_ofList]
  unfold nameLength at h ⊢
  split at h
  · rename_i rest
    simp only [beq_iff_eq] at h ⊢
    split at h
    · exact (h rfl).elim
    · rename_i hrest
      rw [if_neg hrest, Nat.add_comm, List.take_succ_cons, List.dropWhile_cons_of_pos (by rfl),
        hplain (wordPath_relativeName hrest)]
      exact wordPath_relativeName hrest
  · rw [hplain (wordPath_relativeName h)]
    exact wordPath_relativeName h

/-- A token that can be a type is named by a path of words. -/
def NamesType (t : Token) : Prop :=
  Parser.isTypeName t.terminal = true → WordPath (plainName t.text).toList

private theorem Lexes.namesType {mark : Mark} {cs : List Char} {ts : List Token}
    (h : Lexes mark cs ts) {t : Token} (ht : t ∈ ts) : NamesType t := by
  intro htype
  obtain ⟨before, rest, n, -, -, -, hfirst, htext⟩ := h.starts ht
  obtain ⟨s, -, hmatch⟩ := List.exists_of_findSome?_eq_some hfirst
  simp only at hmatch
  split at hmatch
  · cases hmatch
  · rename_i hlength
    obtain ⟨hterminal, rfl⟩ := Prod.mk.inj (Option.some.inj hmatch)
    rw [htext]
    cases s with
    | name => exact wordPath_plainName hlength
    | keyword k => exact (hlength rfl).elim
    | _ =>
      rw [← hterminal] at htype
      cases htype

/-! Declarations that are parsed. -/

/-- A declaration as the grammar has it. -/
structure TypeHint.Declared (h : TypeHint) : Prop where
  words : ∀ name ∈ h.names, WordPath name.toList
  count : match h.kind with
    | .nullable => h.names.length = 1
    | .union => 1 ≤ h.names.length
    | .intersection => 2 ≤ h.names.length

namespace Parser

open TokenParser

private theorem typeName_gives : Gives NamesType typeName fun name => WordPath name.toList := by
  intro ts hts name rest h
  obtain ⟨t, mid, ht, hname⟩ := bind_eq_some_iff.mp h
  obtain ⟨rfl, htype⟩ := oneOf_eq_some ht
  rw [List.forall_mem_cons] at hts
  cases hname
  exact ⟨hts.1 htype, hts.2⟩

/-- The names after an operator, as many as there are. -/
theorem others_give (s : Symbol) :
    Gives NamesType (many (symbol s *> typeName)) fun names =>
      ∀ name ∈ names, WordPath name.toList :=
  ((Gives.oneOf _).seqRight typeName_gives).many

private theorem typeHint_gives : Gives NamesType typeHint TypeHint.Declared := by
  have hhere : Gives NamesType here fun _ => True := by
    intro ts hts mark rest h
    cases h
    exact ⟨trivial, hts⟩
  apply hhere.bind
  intro mark _
  apply (Gives.accepts _).bind
  intro optional _
  split
  · apply typeName_gives.bind
    intro name hname
    exact .pure ⟨by simpa using hname, rfl⟩
  · apply typeName_gives.bind
    intro first hfirst
    apply (others_give .pipe).bind
    intro others hothers
    split
    · exact .pure ⟨List.forall_mem_cons.mpr ⟨hfirst, hothers⟩, by simp⟩
    · apply (others_give .amp).bind
      intro others hothers
      apply Gives.pure
      constructor
      · exact List.forall_mem_cons.mpr ⟨hfirst, hothers⟩
      · cases others with
        | nil => simp
        | cons name names => simp

end Parser

/-- The declaration as it is written. -/
def TypeHint.text (h : TypeHint) : String :=
  match h.kind with
  | .nullable => "?" ++ "|".intercalate h.names
  | .union => "|".intercalate h.names
  | .intersection => "&".intercalate h.names

end Source

namespace Doc

/-! Lists of names as expressions. -/

private theorem namePart_of_nameChars {word : List Char} (h : Source.NameChars word)
    (hascii : ∀ c ∈ word, c.toNat < 128) : NamePart word := by
  have hstarts : ∀ c : Char, c.toNat < 128 → Source.isNameStart c = true → startsPart c = true := by
    intro c hc hname
    have hlow : ¬ 0x80 ≤ c.toNat := by omega
    simpa [Source.isNameStart, startsPart, hlow] using hname
  obtain ⟨hc, hcs⟩ := h
  rw [List.forall_mem_cons] at hascii
  apply NamePart.mk (hstarts _ hascii.1 hc)
  intro d hd
  have hlow : d.toNat < 128 := hascii.2 d hd
  have hname := hcs d hd
  rw [Source.isNameRest, Bool.or_eq_true] at hname
  rcases hname with hstart | hdigit
  · exact goesOnPart_of_startsPart (hstarts d hlow hstart)
  · simp [goesOnPart, Text.isWord, hlow, Char.isAlphanum, hdigit]

private theorem namePath_of_wordPath {cs : List Char} (h : Source.WordPath cs)
    (hascii : ∀ c ∈ cs, c.toNat < 128) : NamePath cs := by
  induction h with
  | last hword => exact .last (namePart_of_nameChars hword hascii)
  | cons hword _ ih =>
    rw [List.forall_mem_append, List.forall_mem_cons] at hascii
    exact .cons (namePart_of_nameChars hword hascii.1) (ih hascii.2.2)

private theorem prints_namePath {name : String} (h : NamePath name.toList) :
    Prints name.toList [.name name] := by
  have hfront : [] ∈ nameFronts := by decide
  exact prints_name (.mk hfront h)

def namedListed (name : String) : Derivation .listed := .primary (.atom (.named name))

def namedPart (name : String) : Derivation .intersection :=
  .intersection (namedListed name) .noOther

/-- A phrase for each of some names, each after a separator. -/
def othersOf (separator : TypeToken) {c : Nonterminal} (make : String → Derivation c) :
    List String → Derivation (.others separator c)
  | [] => .noOther
  | name :: names => .other (make name) (othersOf separator make names)

private theorem tree_othersOf (separator : TypeToken) {c : Nonterminal}
    (make : String → Derivation c) (names : List String) :
    (othersOf separator make names).tree = names.map fun name => (make name).tree := by
  induction names with
  | nil => rfl
  | cons name names ih => exact congrArg (List.cons (make name).tree) ih

private theorem prints_othersOf {mark : Char} {separator : TypeToken} {c : Nonterminal}
    {make : String → Derivation c} (hmark : punctuation? mark = some separator)
    {names : List String} (h : ∀ name ∈ names, Prints name.toList (make name).tokens) :
    Prints (marked mark [] String.toList names) (othersOf separator make names).tokens := by
  induction names with
  | nil => exact prints_nil
  | cons name names ih =>
    rw [List.forall_mem_cons] at h
    have hprints := (h.1.append (ih h.2) (delimited_marked hmark _ names)).mark hmark
    rwa [marked_cons, List.nil_append]

/-- Names with a mark between them are printed as a derivation that has the names in its tree. -/
theorem prints_names {between : String} {mark : Char} {separator : TypeToken} {c : Nonterminal}
    {make : String → Derivation c} (hbetween : between.toList = [mark])
    (hmark : punctuation? mark = some separator) {first : String} {others : List String}
    (h : ∀ name ∈ first :: others, Prints name.toList (make name).tokens) :
    Prints (between.intercalate (first :: others)).toList
      ((make first).tokens ++ (othersOf separator make others).tokens) := by
  rw [List.forall_mem_cons] at h
  rw [String.toList_intercalate, hbetween, List.map_cons, intercalate_cons, List.flatMap_map]
  exact h.1.append (prints_othersOf hmark h.2) (delimited_marked hmark _ others)

section

variable {m : Type → Type} [Monad m] (r : Reader m)

private theorem typeOfText_of_prints {text : String} {d : Derivation .union}
    (h : Prints text.toList d.tokens) : typeOfText r text = typeOf r d.tree := by
  rw [typeOfText_eq_match, parse?_of_spells h.spells.trim]

private theorem typesOf_named [LawfulMonad m] (names : List String) :
    typesOf r (names.map .named) = names.mapM (namedType r) := by
  have hnamed : typeOf r ∘ TypeExpr.named = namedType r := by
    funext name
    rw [Function.comp_apply, typeOf]
  rw [typesOf_eq_mapM, List.mapM_map, hnamed]

/-! Readers. -/

/-- What all results can be certified to be, each along with a proof. -/
def Guarantee.certified (m : Type → Type) [Monad m] [LawfulMonad m] : Guarantee m where
  sat x Q := ∃ y : m {a // Q a}, x = Subtype.val <$> y
  pure h := ⟨Pure.pure ⟨_, h⟩, by simp⟩
  bind := by
    intro α β x f P Q hx hf
    obtain ⟨y, rfl⟩ := hx
    choose g hg using hf
    apply Exists.intro (y >>= fun a => g a.1 a.2)
    rw [map_bind, bind_map_left]
    exact bind_congr fun a => hg a.1 a.2

theorem Guarantee.certified_any [LawfulMonad m] {α : Type} (x : m α) :
    (Guarantee.certified m).sat x fun _ => True :=
  ⟨(fun a => ⟨a, trivial⟩) <$> x, by simp⟩

/-- The unions in the answers of a reader are flat, with no member twice. -/
def Reader.Normal [LawfulMonad m] (r : Reader m) : Prop :=
  ∀ name, (Guarantee.certified m).sat (r.resolve name) (Ty.Every Ty.UnionNode)

private theorem unionOf_namedType [LawfulMonad m] {r : Reader m} (hr : r.Normal) (name : String) :
    (do return Ty.unionOf [← namedType r name]) = namedType r name := by
  obtain ⟨y, hy⟩ := Guarantee.namedType Ty.unionNode_property hr name
  rw [hy, bind_map_left, map_eq_pure_bind]
  exact bind_congr fun a => congrArg Pure.pure (Ty.unionOf_singleton a.2.self)

/-! The three forms of a declaration. -/

section

variable [LawfulMonad m] {pos : Source.Pos} {names : List String}

private theorem typeOfHint_nullable {name : String} (h : NamePath name.toList) :
    typeOfHint r (some ⟨pos, .nullable, [name]⟩) =
      typeOfText r (Source.TypeHint.text ⟨pos, .nullable, [name]⟩) := by
  have hprints : Prints (Source.TypeHint.text ⟨pos, .nullable, [name]⟩).toList
      (Derivation.union (.intersection (.primary (.nullable (.named name))) .noOther)
        .noOther).tokens := by
    have htext : (Source.TypeHint.text ⟨pos, .nullable, [name]⟩).toList = '?' :: name.toList := by
      simp [Source.TypeHint.text]
    rw [htext]
    exact (prints_namePath h).mark rfl
  rw [typeOfText_of_prints r hprints]
  simp [typeOfHint, Derivation.tree, inlined, typeOf]

private theorem typeOfHint_union (hr : r.Normal) (hne : names ≠ [])
    (h : ∀ name ∈ names, NamePath name.toList) :
    typeOfHint r (some ⟨pos, .union, names⟩) =
      typeOfText r (Source.TypeHint.text ⟨pos, .union, names⟩) := by
  obtain ⟨first, others, rfl⟩ := List.exists_cons_of_ne_nil hne
  have hprints : Prints ("|".intercalate (first :: others)).toList
      (Derivation.union (namedPart first) (othersOf .bar namedPart others)).tokens :=
    prints_names rfl rfl fun name hname => prints_namePath (h name hname)
  have htree : (Derivation.union (namedPart first) (othersOf .bar namedPart others)).tree =
      inlined TypeExpr.union (.named first) (others.map .named) :=
    congrArg (inlined TypeExpr.union (.named first)) (tree_othersOf .bar namedPart others)
  rw [Source.TypeHint.text, typeOfText_of_prints r hprints, htree]
  cases others with
  | nil =>
    -- A name alone is a union of one type in a declaration, and just that type in an expression.
    have hsingle : typeOfHint r (some ⟨pos, .union, [first]⟩) =
        (do return Ty.unionOf [← namedType r first]) := by
      simp [typeOfHint]
    rw [hsingle, unionOf_namedType hr]
    rfl
  | cons second others =>
    have hunion : inlined TypeExpr.union (.named first) ((second :: others).map .named) =
        .union ((first :: second :: others).map .named) := rfl
    rw [hunion, typeOf, typesOf_named]
    rfl

private theorem typeOfHint_intersection (hlength : 2 ≤ names.length)
    (h : ∀ name ∈ names, NamePath name.toList) :
    typeOfHint r (some ⟨pos, .intersection, names⟩) =
      typeOfText r (Source.TypeHint.text ⟨pos, .intersection, names⟩) := by
  match names, hlength with
  | first :: second :: others, _ =>
    have hnames : Prints ("&".intercalate (first :: second :: others)).toList
        ((namedListed first).tokens ++ (othersOf .amp namedListed (second :: others)).tokens) :=
      prints_names rfl rfl fun name hname => prints_namePath (h name hname)
    have hprints : Prints ("&".intercalate (first :: second :: others)).toList
        (Derivation.union (.intersection (namedListed first)
          (othersOf .amp namedListed (second :: others))) .noOther).tokens := by
      rwa [Derivation.tokens, Derivation.tokens, Derivation.tokens, List.append_nil]
    have htree : (Derivation.union (.intersection (namedListed first)
        (othersOf .amp namedListed (second :: others))) .noOther).tree =
          .intersection ((first :: second :: others).map .named) :=
      congrArg (inlined TypeExpr.intersection (.named first))
        (tree_othersOf .amp namedListed (second :: others))
    rw [Source.TypeHint.text, typeOfText_of_prints r hprints, htree, typeOf, typesOf_named]
    rfl

end

end

private theorem unionNode_object (name : String) (declared : Option String) :
    Ty.Every Ty.UnionNode (.object name declared) := by
  intro t ht
  rw [Ty.parts, List.mem_singleton] at ht
  subst ht
  trivial

private theorem normal_readerIn (p : Inference.Program) (c : Source.Context)
    (selfClass : Option String) : (Inference.readerIn p c selfClass).Normal := by
  have hobject (name : String) : (Guarantee.certified Inference.Analysis).sat
      (Inference.objectType p name) (Ty.Every Ty.UnionNode) := by
    apply (Guarantee.certified _).bind (Guarantee.certified_any _)
    intro decl _
    cases decl with
    | none => exact (Guarantee.certified _).pure (unionNode_object _ _)
    | some decl => exact (Guarantee.certified _).pure (unionNode_object _ _)
  intro name
  show (Guarantee.certified _).sat (Inference.resolveName p c name) _
  rw [Inference.resolveName]
  split
  · exact hobject _
  · exact hobject _

/-- A native declaration with names in ASCII means the type that a doc expression of its text means,
for every reader whose answers have only flat unions in them. The parser makes no other declarations
of the tokens of a source, and the readers of a program are such readers. -/
theorem typeOfHint_eq_typeOfText :
    (∀ {m : Type → Type} [Monad m] [LawfulMonad m] (r : Reader m) (h : Source.TypeHint),
      r.Normal → h.Declared → (∀ name ∈ h.names, ∀ c ∈ name.toList, c.toNat < 128) →
        typeOfHint r (some h) = typeOfText r h.text) ∧
    (∀ (source : List Char) (ts rest : List Source.Token) (h : Source.TypeHint),
      (Source.lex source).failure = none → (∀ t ∈ ts, t ∈ (Source.lex source).tokens) →
        Source.Parser.typeHint ts = some (h, rest) → h.Declared) ∧
    ∀ (p : Inference.Program) (c : Source.Context) (selfClass : Option String),
      (Inference.readerIn p c selfClass).Normal := by
  apply And.intro
  · intro m _ _ r h hr hdeclared hascii
    have hpaths : ∀ name ∈ h.names, NamePath name.toList := fun name hname =>
      namePath_of_wordPath (hdeclared.words name hname) (hascii name hname)
    obtain ⟨pos, kind, names⟩ := h
    have hcount := hdeclared.count
    cases kind with
    | nullable =>
      obtain ⟨name, rfl⟩ := List.length_eq_one_iff.mp hcount
      exact typeOfHint_nullable r (hpaths name List.mem_cons_self)
    | union => exact typeOfHint_union r hr (List.ne_nil_of_length_pos hcount) hpaths
    | intersection => exact typeOfHint_intersection r hcount hpaths
  apply And.intro
  · intro source ts rest h hlexed hts hparse
    have hlexes := Source.lexFrom_lexes hlexed
    have hnames : ∀ t ∈ ts, Source.NamesType t := fun t ht => hlexes.namesType (hts t ht)
    exact (Source.Parser.typeHint_gives ts hnames h rest hparse).1
  · exact normal_readerIn

/-- A reader that writes down the names it is asked for. -/
def notingReader : Reader (StateM (List String)) :=
  ⟨some "App\\User", fun name => do
    modify (· ++ [name])
    return .object ("Resolved\\" ++ name) none⟩

/-- The names of a declaration can differ in case only, and the parser takes a separator in front
of a name away. -/
theorem notingReader_typeOfHint :
    typeOfHint notingReader (some ⟨default, .union, ["A\\B", "self", "a\\b"]⟩) =
        typeOfText notingReader "A\\B|self|a\\b" ∧
      ∃ h, Source.Parser.typeHint (Source.lex "\\A\\B".toList).tokens = some (h, []) ∧
        h.Declared ∧ h.text = "A\\B" := by
  have hnormal : notingReader.Normal := by
    intro name
    apply (Guarantee.certified _).bind (Guarantee.certified_any _)
    exact fun _ _ => (Guarantee.certified _).pure (unionNode_object _ _)
  have hletter : ∀ c : Char, Source.isNameStart c = true → Source.NameChars [c] :=
    fun c hc => .mk hc (by simp)
  have hself : Source.NameChars ['s', 'e', 'l', 'f'] :=
    .mk (by decide) (by simp [Source.isNameRest, Source.isNameStart])
  have hwords : ∀ name ∈ ["A\\B", "self", "a\\b"], Source.WordPath name.toList := by
    simp only [List.forall_mem_cons]
    exact ⟨.cons (hletter 'A' (by decide)) (.last (hletter 'B' (by decide))), .last hself,
      .cons (hletter 'a' (by decide)) (.last (hletter 'b' (by decide))), by simp⟩
  have hascii : ∀ name ∈ ["A\\B", "self", "a\\b"], ∀ c ∈ name.toList, c.toNat < 128 := by
    simp
  have hlex : Source.lex "\\A\\B".toList = ⟨[⟨.name, "\\A\\B", .start⟩], none⟩ :=
    Source.lex_single (by decide) (by decide +kernel)
  have hparse : Source.Parser.typeHint (Source.lex "\\A\\B".toList).tokens =
      some (⟨Source.Mark.start.pos, .union, ["A\\B"]⟩, []) := by
    rw [hlex]
    rfl
  apply And.intro
  · exact typeOfHint_eq_typeOfText.1 notingReader _ hnormal ⟨hwords, by decide⟩ hascii
  · have hdeclared := typeOfHint_eq_typeOfText.2.1 "\\A\\B".toList _ [] _ (by rw [hlex])
      (fun t ht => ht) hparse
    exact ⟨_, hparse, hdeclared, by decide⟩

end Doc

end PhpTypes
