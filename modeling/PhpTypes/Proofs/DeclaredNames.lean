import PhpTypes.Proofs.ClauseNames
import PhpTypes.Proofs.Lexemes
import PhpTypes.Proofs.TreeComments

/-!
# The names of declared classes

The name of a class is the text of a token, and no token is without text. So every class that
sources declare has a name, under which the index finds it.
-/

namespace PhpTypes

open Source

namespace Source.Origin

open PhpTypes.Source.Parser PhpTypes.TokenParser

variable {o : Origin}

/-- A text is that of a token. -/
def Writes (o : Origin) (text : String) : Prop := ∃ t, o.Has t ∧ t.text = text

/-- The names of all classes are written. -/
def WritesNames (o : Origin) (tops : List Top) : Prop :=
  ∀ c ∈ tops.filterMap Top.class?, o.Writes c.name

private theorem gives_writtenName : o.Gives name o.Writes :=
  (gives_token .name).bind fun t ht => .pure ⟨t, ht, rfl⟩

private theorem name_foldl_addMember (members : List Member) (c : ClassLike) :
    (members.foldl addMember c).name = c.name := by
  induction members generalizing c with
  | nil => rfl
  | cons m members ih =>
    rw [List.foldl_cons, ih]
    cases m <;> rfl

namespace Obeys

variable {r : Rules} (hr : o.Obeys r)

include hr

private theorem classBody_name {c : ClassLike} (hc : o.Writes c.name) :
    o.Gives (Parser.classBody r c) fun d => o.Writes d.name := by
  refine (gives_symbol .lbrace).skip (hr.member.many.bind fun members _ => ?_)
  refine (gives_symbol .rbrace).skip (.pure ?_)
  rwa [name_foldl_addMember]

private theorem ordinaryClass_name (mark : Mark) (mods : List Token) :
    o.Gives (Parser.ordinaryClass r mark mods) fun c => o.Writes c.name := by
  refine (gives_keyword .classKw).skip (gives_writtenName.bind fun name hname => ?_)
  refine (gives_afterKeyword gives_name .extendsKw).bind fun parent _ => ?_
  refine (gives_afterKeyword gives_nameList .implementsKw).bind fun interfaces _ => ?_
  exact hr.classBody_name hname

private theorem traitClass_name : o.Gives (Parser.traitClass r) fun c => o.Writes c.name := by
  refine gives_here.bind fun mark _ => (gives_keyword .traitKw).skip ?_
  exact gives_writtenName.bind fun name hname => hr.classBody_name hname

private theorem interfaceClass_name :
    o.Gives (Parser.interfaceClass r) fun c => o.Writes c.name := by
  refine gives_here.bind fun mark _ => (gives_keyword .interfaceKw).skip ?_
  refine gives_writtenName.bind fun name hname => ?_
  refine (gives_afterKeyword gives_nameList .extendsKw).bind fun parents _ => ?_
  exact hr.classBody_name hname

private theorem modified_names : o.Gives (Parser.modified r) o.WritesNames := by
  refine gives_here.bind fun mark hmark => gives_modifiers.bind fun mods _ => ?_
  refine gives_look.bind fun next _ => ?_
  split
  · refine (hr.constItems hmark).bind fun cs _ => .pure ?_
    simp [WritesNames, Top.class?]
  · split
    · refine (hr.ordinaryClass_name mark mods).bind fun c hc => .pure ?_
      simpa [WritesNames, Top.class?] using hc
    · exact .fail

private theorem statement_names : o.Gives (Parser.statement r) o.WritesNames := by
  intro ts hts tops rest h
  obtain ⟨⟨stmt, rest'⟩, hstmt, heq⟩ := Option.map_eq_some_iff.mp h
  obtain ⟨-, hrest⟩ := hr.firstReading ts hts stmt rest' hstmt
  cases heq
  refine ⟨?_, hrest⟩
  split <;> simp [WritesNames, Top.class?]

private theorem top_names : o.Gives (Parser.top r) o.WritesNames := by
  refine gives_look.bind fun next _ => ?_
  split
  · refine (gives_keyword .namespaceKw).bind fun t _ => gives_name.bind fun name _ => ?_
    exact (gives_symbol .semicolon).skip (.pure (by simp [WritesNames, Top.class?]))
  · have hitem : o.Gives useItem fun _ => True :=
      gives_name.bind fun _ _ => (gives_afterKeyword gives_name .asKw).bind fun _ _ => .pure trivial
    refine (gives_keyword .useKw).bind fun t _ => (gives_separated hitem .comma).bind fun _ _ => ?_
    exact (gives_symbol .semicolon).skip (.pure (by simp [WritesNames, Top.class?]))
  · refine hr.traitClass_name.bind fun c hc => .pure ?_
    simpa [WritesNames, Top.class?] using hc
  · refine hr.interfaceClass_name.bind fun c hc => .pure ?_
    simpa [WritesNames, Top.class?] using hc
  · refine Gives.orElse ?_ hr.statement_names
    exact hr.function.bind fun f _ => .pure (by simp [WritesNames, Top.class?])
  · have hstarts : o.Gives startsModified fun _ => True := by
      intro ts hts b rest h
      unfold startsModified at h
      split at h <;> cases h <;> exact ⟨trivial, hts⟩
    refine hstarts.bind fun b _ => ?_
    split
    · exact hr.modified_names
    · exact hr.statement_names

private theorem file_names : o.Gives (Parser.file r) fun f => o.WritesNames f.tops := by
  refine hr.top_names.many.bind fun tops htops => .pure fun c hc => ?_
  obtain ⟨t, ht, hclass⟩ := List.mem_filterMap.mp hc
  obtain ⟨ts, hts, ht⟩ := List.mem_flatten.mp ht
  exact htops ts hts c (List.mem_filterMap.mpr ⟨t, ht, hclass⟩)

end Obeys

private theorem parseTokens_names {f : File} (h : Parser.parseTokens o.docs o.tokens = some f) :
    o.WritesNames f.tops := by
  unfold Parser.parseTokens TokenParser.complete at h
  split at h
  · rename_i hrun
    cases h
    exact ((o.obeys_rules _).file_names o.tokens (fun _ ht => ht) _ _ hrun).1
  · cases h

theorem Writes.ne_empty {source text : String} (hlexed : (lex source.toList).failure = none)
    (h : (ofSource source).Writes text) : text ≠ "" := by
  obtain ⟨t, ht, rfl⟩ := h
  intro hempty
  refine (lexFrom_lexes hlexed).text_ne_nil (List.mem_of_mem_filter ht) ?_
  simp [hempty]

end Source.Origin

private theorem mem_classesIn {p : Context × ClassLike} {c : Context} {ts : List Top}
    (h : p ∈ classesIn c ts) : p.2 ∈ ts.filterMap Top.class? := by
  induction ts generalizing c with
  | nil => cases h
  | cons t ts ih =>
    rcases List.mem_append.mp h with h | h
    · obtain ⟨d, hd, rfl⟩ := Option.map_eq_some_iff.mp (Option.mem_toList.mp h)
      simp [hd]
    · obtain ⟨s, hs, hclass⟩ := List.mem_filterMap.mp (ih h)
      exact List.mem_filterMap.mpr ⟨s, List.mem_cons_of_mem t hs, hclass⟩

private theorem name_ne_of_written {source : String} {w : File} (h : written source = .ok w)
    {c : ClassLike} (hc : c ∈ w.classes) : c.name ≠ "" := by
  unfold written at h
  simp only at h
  split at h
  · cases h
  · rename_i hlexed
    split at h
    · rename_i file hfile
      cases h
      exact (Origin.parseTokens_names (o := .ofSource source) hfile c hc).ne_empty hlexed
    · cases h

private theorem fullName_ne {c : ClassLike} (h : c.name ≠ "") : c.fullName ≠ "" := by
  rw [ClassLike.fullName, Context.qualified]
  split
  · exact h
  · intro hempty
    have hlength := congrArg String.length hempty
    simp at hlength

private theorem declaredClasses_named {source : String} {c : ClassLike}
    (hc : c ∈ declaredClasses source) : c.fullName ≠ "" := by
  cases h : written source with
  | error e =>
    have hparse : parse source = .error e := by rw [parse, h]; rfl
    simp [declaredClasses, hparse] at hc
  | ok w =>
    rw [declaredClasses_of_written h] at hc
    obtain ⟨p, hp, rfl⟩ := List.mem_map.mp hc
    have hname : p.2.name ≠ "" := name_ne_of_written h (mem_classesIn hp)
    exact fullName_ne hname

private theorem mem_of_mem_survivors {log : List ClassLike} {c : ClassLike}
    (hc : c ∈ survivors log) : c ∈ log := by
  obtain ⟨key, -, hlatest⟩ := List.mem_filterMap.mp hc
  exact List.mem_reverse.mp (List.mem_of_find?_eq_some hlatest)

/-- All classes of the index have names, whatever sources were processed. -/
theorem Frontend.processAll_named (natives : Natives) (diags : Diags) (events : List Event)
    (sources : List (String × String)) :
    ∀ c ∈ (processAll ⟨natives, .empty, diags, events⟩ sources).index.classes.values,
      c.fullName ≠ "" := by
  intro c hc
  have hlog := processAll_registers ⟨natives, .empty, diags, events⟩ sources
  rw [Index.values_of_log hlog] at hc
  obtain ⟨s, -, hdeclared⟩ := List.mem_flatMap.mp (mem_of_mem_survivors hc)
  exact declaredClasses_named hdeclared

end PhpTypes
