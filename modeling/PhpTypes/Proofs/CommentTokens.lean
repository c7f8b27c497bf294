import PhpTypes.Proofs.Lexemes
import PhpTypes.Proofs.TreeComments

/-!
# Comments and tokens

Doc comments are found in the text of a source without regard to its tokens. A comment that a node
gets is a token of its own, except where its opening stands inside of a string or of another
comment, or where the opening is already a whole comment for the lexer.
-/

namespace PhpTypes.Source

/-! The text of a comment. -/

private theorem commentBodyLength_eq_some {cs : List Char} {n : Nat}
    (h : commentBodyLength cs = some n) :
    ∃ body rest, cs = body ++ '*' :: '/' :: rest ∧ n = body.length + 2 := by
  fun_induction commentBodyLength cs generalizing n with
  | case1 => cases h
  | case2 rest =>
    cases h
    exact ⟨[], rest, rfl, rfl⟩
  | case3 c cs _ ih =>
    obtain ⟨k, hk, rfl⟩ := Option.map_eq_some_iff.mp h
    obtain ⟨body, rest, rfl, rfl⟩ := ih hk
    exact ⟨c :: body, rest, rfl, by simp⟩

/-- The characters of a doc comment, with what is between its opening and its end. -/
def docText (body : List Char) : List Char := '/' :: '*' :: '*' :: (body ++ ['*', '/'])

private theorem docText_append (body rest : List Char) :
    docText body ++ rest = '/' :: '*' :: '*' :: (body ++ '*' :: '/' :: rest) := by
  simp [docText]

/-- A doc comment ends where a comment of which its second star is already a part would end. -/
theorem docLength_ne_zero {cs : List Char} (h : docLength cs ≠ 0) :
    ∃ body rest, cs = docText body ++ rest ∧ docLength cs = (docText body).length ∧
      commentBodyLength (body ++ '*' :: '/' :: rest) = some (body.length + 2) := by
  unfold docLength at h ⊢
  split at h
  · rename_i cs
    split at h
    · rename_i n hn
      obtain ⟨body, rest, rfl, rfl⟩ := commentBodyLength_eq_some hn
      exact ⟨body, rest, (docText_append body rest).symm, by simp [docText], hn⟩
    · exact absurd rfl h
  · exact absurd rfl h

/-- A text stands at a place of a source, with only blanks between it and another place. -/
def LeadsTo (source : List Char) (start : Nat) (text : List Char) (place : Nat) : Prop :=
  ∃ before gap after, source = before ++ text ++ gap ++ after ∧ before.length = start ∧
    (∀ c ∈ gap, Text.isBlank c = true) ∧ start + text.length + gap.length = place

/-- The comments that are found. -/
theorem mem_docsFrom {offset skip place : Nat} {cs : List Char} {text : String}
    (h : (place, text) ∈ docsFrom offset skip cs) :
    ∃ before body rest, cs = before ++ (docText body ++ rest) ∧
      text = String.ofList (docText body) ∧
      place = offset + before.length + (docText body).length + runLength Text.isBlank rest ∧
      commentBodyLength (body ++ '*' :: '/' :: rest) = some (body.length + 2) := by
  induction cs generalizing offset skip with
  | nil => cases h
  | cons c cs ih =>
    have hlater : ∀ {skip}, (place, text) ∈ docsFrom (offset + 1) skip cs →
        ∃ before body rest, c :: cs = before ++ (docText body ++ rest) ∧
          text = String.ofList (docText body) ∧
          place = offset + before.length + (docText body).length + runLength Text.isBlank rest ∧
          commentBodyLength (body ++ '*' :: '/' :: rest) = some (body.length + 2) := by
      intro skip h
      obtain ⟨before, body, rest, hcs, htext, hplace, hend⟩ := ih h
      refine ⟨c :: before, body, rest, by simp [hcs], htext, ?_, hend⟩
      rw [hplace, List.length_cons]
      omega
    cases skip with
    | succ skip => exact hlater h
    | zero =>
      rw [docsFrom] at h
      simp only at h
      split at h
      · exact hlater h
      · rename_i hn
        obtain ⟨body, rest, hcs, hlength, hend⟩ := docLength_ne_zero (by simpa using hn)
        rcases List.mem_cons.mp h with heq | h
        · rw [hlength, hcs] at heq
          simp only [List.drop_left, List.take_left, Prod.mk.injEq] at heq
          exact ⟨[], body, rest, hcs, heq.2, by simpa using heq.1, hend⟩
        · exact hlater h

/-- The comment that belongs to a place stands before it. -/
theorem docComments_at? {source : List Char} {place : Nat} {text : String}
    (h : (docComments source).at? place = some text) :
    ∃ before body rest, source = before ++ (docText body ++ rest) ∧
      text = String.ofList (docText body) ∧
      LeadsTo source before.length (docText body) place ∧
      commentBodyLength (body ++ '*' :: '/' :: rest) = some (body.length + 2) := by
  obtain ⟨_, _, hentries, -⟩ := List.lookup_eq_some_iff.mp h
  have hmem : (place, text) ∈ docsFrom 0 0 source := by
    change (place, text) ∈ (docComments source).entries
    rw [hentries]
    simp
  obtain ⟨before, body, rest, hsource, htext, hplace, hend⟩ := mem_docsFrom hmem
  refine ⟨before, body, rest, hsource, htext, ?_, hend⟩
  refine ⟨before, rest.takeWhile Text.isBlank, rest.dropWhile Text.isBlank, ?_, rfl, ?_, ?_⟩
  · rw [hsource]
    simp [List.takeWhile_append_dropWhile]
  · exact fun c hc => List.all_eq_true.mp List.all_takeWhile c hc
  · rw [hplace, Nat.zero_add, runLength]

/-- The end of the comment for the lexer, which takes the second star for a part of the body. -/
theorem commentBodyLength_star {body rest : List Char}
    (h : commentBodyLength (body ++ '*' :: '/' :: rest) = some (body.length + 2)) :
    commentBodyLength ('*' :: (body ++ '*' :: '/' :: rest)) =
      some (if body.head? = some '/' then 2 else body.length + 3) := by
  cases body with
  | nil => simp [commentBodyLength]
  | cons c body =>
    by_cases hc : c = '/'
    · subst hc
      simp [commentBodyLength]
    · rw [List.cons_append] at h ⊢
      rw [commentBodyLength, h]
      · simp [hc]
      · simpa using hc

private theorem docText_isPrefix_iff {body : List Char} :
    "/**/".toList <+: docText body ↔ body.head? = some '/' := by
  have hopen : "/**/".toList = ['/', '*', '*', '/'] := rfl
  cases body with
  | nil => simp [hopen, docText, List.cons_prefix_cons]
  | cons c body => simp [hopen, docText, List.cons_prefix_cons, eq_comm]

/-- The blanks before a place are counted back from it, so a text that does not end with a blank
can lead to it from one place only. -/
theorem LeadsTo.start_eq {source text : List Char} {start start' place : Nat} {c : Char}
    (htext : text.getLast? = some c) (hc : Text.isBlank c = false)
    (h : LeadsTo source start text place) (h' : LeadsTo source start' text place) :
    start = start' := by
  have hgap : ∀ {start}, LeadsTo source start text place →
      start + text.length + runLength Text.isBlank (source.take place).reverse = place := by
    rintro start ⟨before, gap, after, rfl, rfl, hgap, rfl⟩
    obtain ⟨init, rfl⟩ := List.getLast?_eq_some_iff.mp htext
    have htake : (before ++ (init ++ [c]) ++ gap ++ after).take
        (before.length + (init ++ [c]).length + gap.length) = before ++ (init ++ [c]) ++ gap :=
      List.take_left' (by simp only [List.length_append])
    have hblank : ∀ a ∈ gap.reverse, Text.isBlank a = true := by simpa using hgap
    rw [htake, runLength]
    simp [List.takeWhile_append_of_pos hblank, hc]
  have := hgap h
  have := hgap h'
  omega

private theorem docText_getLast? (body : List Char) : (docText body).getLast? = some '/' := by
  have hend : docText body = ('/' :: '*' :: '*' :: (body ++ ['*'])) ++ ['/'] := by simp [docText]
  rw [hend, List.getLast?_append]
  rfl

/-- Where a token starts with a doc comment, it is that comment unless the lexer ends it at once. -/
theorem Lexes.comment {ts : List Token} {before body rest : List Char}
    (h : Lexes .start (before ++ (docText body ++ rest)) ts)
    (hend : commentBodyLength (body ++ '*' :: '/' :: rest) = some (body.length + 2)) {t : Token}
    (ht : t ∈ ts) (hstart : t.mark.offset = before.length) :
    t.terminal = .blockComment ∧
      (t.text = String.ofList (docText body) ↔ ¬ "/**/".toList <+: docText body) := by
  obtain ⟨before', rest', n, hcs, -, hmark, hfirst, htext⟩ := h.starts ht
  have hlength : before.length = before'.length := by
    rw [← hstart, hmark, Mark.offset_advance]
    exact Nat.zero_add _
  obtain ⟨rfl, rfl⟩ := List.append_inj hcs hlength
  have hmatch := firstMatch_comment (commentBodyLength_star hend)
  rw [← docText_append, hfirst, Option.some.injEq, Prod.mk.injEq] at hmatch
  obtain ⟨hterminal, rfl⟩ := hmatch
  refine ⟨hterminal, ?_⟩
  rw [htext, String.ofList_inj, docText_isPrefix_iff]
  by_cases hslash : body.head? = some '/'
  · have hshort : ((docText body ++ rest).take 4).length ≠ (docText body).length := by
      simp [docText]
      omega
    simp only [hslash, if_true, not_true_eq_false, iff_false]
    exact fun heq => hshort (congrArg List.length heq)
  · have hwhole : (docText body ++ rest).take (body.length + 3 + 2) = docText body :=
      List.take_left' (by simp [docText])
    simp [hslash, hwhole]

/-- A comment before a place is a token just if the lexer does not end it at once, and if no token
stands around its opening. -/
theorem Lexes.comment_iff {source : List Char} {ts : List Token} (h : Lexes .start source ts)
    {before body rest : List Char} (hsource : source = before ++ (docText body ++ rest))
    (hend : commentBodyLength (body ++ '*' :: '/' :: rest) = some (body.length + 2)) {place : Nat}
    (hleads : LeadsTo source before.length (docText body) place) :
    (∃ c ∈ ts, c.terminal = .blockComment ∧ c.text = String.ofList (docText body) ∧
        LeadsTo source c.mark.offset (docText body) place) ↔
      ¬ "/**/".toList <+: docText body ∧ ∀ t ∈ ts, ¬ t.Encloses before.length := by
  have hlexes := h
  rw [hsource] at hlexes
  constructor
  · rintro ⟨c, hc, -, htext, hleads'⟩
    have hstart := hleads'.start_eq (docText_getLast? body) (by decide) hleads
    refine ⟨(hlexes.comment hend hc hstart).2.mp htext, fun t ht hinside => ?_⟩
    rw [← hstart] at hinside
    exact h.not_encloses ht hc hinside
  · rintro ⟨hopen, houtside⟩
    have hbound : before.length < (before ++ (docText body ++ rest)).length := by
      simp [docText]
    have hcovers := hlexes.covers hbound
    rw [show Mark.start.offset + before.length = before.length from Nat.zero_add _] at hcovers
    rcases hcovers with ⟨c, hc, hstart⟩ | ⟨t, ht, hinside⟩
    · obtain ⟨hterminal, htext⟩ := hlexes.comment hend hc hstart
      refine ⟨c, hc, hterminal, htext.mpr hopen, ?_⟩
      rwa [hstart]
    · exact (houtside t ht hinside).elim

private theorem lexes_of_parse {source : String} {f : File} (h : parse source = .ok f) :
    Lexes .start source.toList (lex source.toList).tokens := by
  apply lexFrom_lexes
  change (lex source.toList).failure = none
  unfold parse written at h
  simp only at h
  split at h
  · cases h
  · assumption

/-- An opening that stands inside of a token stands in a string or in another comment. -/
theorem Lexes.isLong_of_encloses {ts : List Token} {before after : List Char}
    (h : Lexes .start (before ++ '/' :: after) ts) {t : Token} (ht : t ∈ ts)
    (hinside : t.Encloses before.length) : t.terminal.isLong = true := by
  obtain ⟨before', rest, n, hcs, -, hmark, hfirst, htext⟩ := h.starts ht
  obtain ⟨hlt, hgt⟩ := hinside
  have hoffset : t.mark.offset = before'.length := by
    rw [hmark, Mark.offset_advance]
    exact Nat.zero_add _
  rw [hoffset] at hlt hgt
  obtain ⟨mid, rfl, rfl⟩ : ∃ mid, before = before' ++ mid ∧ rest = mid ++ '/' :: after := by
    rcases List.append_eq_append_iff.mp hcs with ⟨mid, rfl, -⟩ | hmid
    · rw [List.length_append] at hlt
      omega
    · exact hmid
  rw [htext, String.toList_ofList, List.length_take, List.length_append] at hgt
  rw [List.length_append] at hlt
  obtain ⟨k, rfl⟩ : ∃ k, n = mid.length + (k + 1) := ⟨n - mid.length - 1, by omega⟩
  obtain ⟨c, mid, rfl⟩ := List.exists_cons_of_ne_nil (l := mid) (by rintro rfl; simp at hlt)
  refine isLong_of_slash hfirst ?_
  rw [List.take_length_add_append]
  simp

/-- A comment that a node gets stands right before the first token of the node, with only blanks
between. It is a comment for the lexer too just if it does not start with a whole one, and if its
opening is not inside of a token; such a token is a string or another comment. -/
theorem node_comment_token {source : String} {f : File} (hparse : parse source = .ok f)
    {node : Node} (hnode : node ∈ f.nodes) {pos : Pos} {text : String}
    (hcomment : node.comment? = some (pos, text)) :
    let tokens := (lex source.toList).tokens
    ∃ first ∈ tokens, first.terminal.isTrivia = false ∧ first.pos = pos ∧
      (∀ t ∈ tokens, t.pos = pos → t = first) ∧
      ∃ start, LeadsTo source.toList start text.toList first.mark.offset ∧
        "/**".toList <+: text.toList ∧
        (∀ t ∈ tokens, t.Encloses start → t.terminal.isLong = true) ∧
        ((∃ c ∈ tokens, c.terminal = .blockComment ∧ c.text = text ∧
            LeadsTo source.toList c.mark.offset text.toList first.mark.offset) ↔
          ¬ "/**/".toList <+: text.toList ∧ ∀ t ∈ tokens, ¬ t.Encloses start) := by
  intro tokens
  have hlexes : Lexes .start source.toList tokens := lexes_of_parse hparse
  obtain ⟨mark, hmark, rfl, hat⟩ := Origin.explainsAll_of_parse hparse node hnode pos text hcomment
  obtain ⟨before, body, rest, hsource, rfl, hleads, hend⟩ := docComments_at? hat
  -- A comment has characters, so the place after it is not the start of the source.
  obtain ⟨first, hfirst, rfl⟩ : ∃ t ∈ (lex source.toList).significant, t.mark = mark := by
    rcases hmark with rfl | hmark
    · obtain ⟨_, gap, _, -, -, -, hzero⟩ := hleads
      have hzero : before.length + (docText body).length + gap.length = 0 := hzero
      simp only [docText, List.length_cons] at hzero
      omega
    · exact hmark
  obtain ⟨hmem, hsignificant⟩ := List.mem_filter.mp hfirst
  refine ⟨first, hmem, by simpa using hsignificant, rfl, fun t ht hpos => ?_, before.length, ?_⟩
  · exact hlexes.eq_of_pos ht hmem hpos
  rw [String.toList_ofList]
  refine ⟨hleads, ⟨body ++ ['*', '/'], rfl⟩, fun t ht hinside => ?_, ?_⟩
  · rw [hsource, docText_append] at hlexes
    exact hlexes.isLong_of_encloses ht hinside
  · exact hlexes.comment_iff hsource hend hleads

/-- The comments of a source's nodes, with their positions. -/
def commentsOf (source : String) : Option (List (Pos × String)) :=
  (parse source).toOption.map fun f => f.nodes.filterMap Node.comment?

/-- A comment before an assignment on the next line. -/
def documentedSource : String := "<?php\n/** a */\n$b = 1;\n"

theorem documentedSource_comment :
    commentsOf documentedSource = some [(⟨3, 1⟩, "/** a */")] ∧
    ∃ first ∈ (lex documentedSource.toList).tokens, first.pos = ⟨3, 1⟩ ∧
      ∃ c ∈ (lex documentedSource.toList).tokens, c.terminal = .blockComment ∧
        c.text = "/** a */" ∧
        LeadsTo documentedSource.toList c.mark.offset "/** a */".toList first.mark.offset := by
  have hcomments : commentsOf documentedSource = some [(⟨3, 1⟩, "/** a */")] := by decide +kernel
  refine ⟨hcomments, ?_⟩
  obtain ⟨f, hf, hnodes⟩ := Option.map_eq_some_iff.mp hcomments
  have hparse : parse documentedSource = .ok f := by
    cases h : parse documentedSource with
    | error e => simp [h, Except.toOption] at hf
    | ok g => simpa [h, Except.toOption] using hf
  have hmem : ((⟨3, 1⟩, "/** a */") : Pos × String) ∈ f.nodes.filterMap Node.comment? := by
    simp [hnodes]
  obtain ⟨node, hnode, hcomment⟩ := List.mem_filterMap.mp hmem
  obtain ⟨first, hfirst, -, hpos, -, start, hleads, -, -, htoken⟩ :=
    node_comment_token hparse hnode hcomment
  have hplace : first.mark.offset = 15 := by
    have hplaces : ∀ t ∈ (lex documentedSource.toList).tokens,
        t.pos = ⟨3, 1⟩ → t.mark.offset = 15 := by decide +kernel
    exact hplaces first hfirst hpos
  have hstart : start = 6 := by
    have hwritten : LeadsTo documentedSource.toList 6 "/** a */".toList 15 :=
      ⟨"<?php\n".toList, ['\n'], "$b = 1;\n".toList, rfl, rfl,
        List.forall_mem_singleton.mpr (by decide), rfl⟩
    exact (hplace ▸ hleads).start_eq (c := '/') rfl (by decide) hwritten
  have houtside : ∀ t ∈ (lex documentedSource.toList).tokens, ¬ t.Encloses start := by
    rw [hstart]
    unfold Token.Encloses
    decide +kernel
  exact ⟨first, hfirst, hpos, htoken.mpr ⟨by decide, houtside⟩⟩

/-- An opening inside of a string starts a comment that is no token. -/
theorem quotedOpening_comment :
    let source := "<?php\n$a = '/**'; /* x */ $b = 1;\n"
    commentsOf source = some [(⟨2, 21⟩, "/**'; /* x */")] ∧
      ∀ t ∈ (lex source.toList).tokens, t.text ≠ "/**'; /* x */" := by
  decide +kernel

end PhpTypes.Source
