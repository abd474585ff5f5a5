import FeatureTree.Proofs.Exchange.Variables
import FeatureTree.Proofs.Language.Exchange
import FeatureTree.Proofs.Snippet.Root

/-!
# Comments between tokens

A block comment may stand where a blank stands between two tokens of a declaration. The rules
skip both, so nothing should be lost: the text is read again, and its variables have the names
and the initializers that they had.

The end of an initializer is found by a boundary that skips blanks only, though: with a
comment behind the comma the boundary is not seen, and what should be the next declarator is
read as more of the initializer. Where the ends of the initializers are seen with the comment
as well, everything is kept.

The reading of a production that tries one rule is the match of the rule's body, so what the
lists of declarators keep is what the production keeps (`ReadsAlone.exchange`). What the rule
leaves are rests that belong together, and so the strict boundary accepts both or none.
-/

namespace FeatureTree

namespace SnippetGrammar

open Grammar

variable {R : Type} {g : SnippetGrammar R} {x : Exchange} {single : Char → Bool}
  {production : Production} {entry r boundary : R} {kind : Kind} {language : Language}
  {input p : List Char} {n : Node} {t : List Char} {inner : Forest R}

/-- There is one rule that the production tries, and it makes the root. -/
structure ReadsAlone (g : SnippetGrammar R) (production : Production) (entry r : R) (kind : Kind) :
    Prop where
  production_entry : g.entry production = some entry
  role_entry : g.role entry = .transparent
  enters : g.Enters entry (.rule r)
  layout : g.layout r = .spaced
  role : g.role r = .node kind

theorem ReadsAlone.parse (hr : g.ReadsAlone production entry r kind) (hg : g.Ranked) :
    g.parse entry input = (g.matchExpr (g.body r) .spaced (g.trivia.skip input)).map
      fun (t, inner) =>
        (t, .cons entry input t (.cons r (g.trivia.skip input) t inner .nil) .nil) := by
  rw [parse_entry hg hr.enters]
  show (g.matchRule r .spaced (g.trivia.skip input)).map _ = _
  rw [matchRule_eq hg, hr.layout, Option.map_map]
  congr 1
  funext found
  show (found.1, Forest.cons _ _ _ (g.record r .spaced _ _ _) _) = _
  rw [record, if_pos (by rw [hr.layout]; rfl)]

theorem ReadsAlone.leftover (hr : g.ReadsAlone production entry r kind) (hg : g.Ranked)
    (h : g.matchExpr (g.body r) .spaced (g.trivia.skip input) = some (t, inner)) :
    g.leftover production input = some t := by
  rw [SnippetGrammar.leftover, hr.production_entry, Option.bind_some, hr.parse hg, h]
  rfl

variable [BEq R]

theorem ReadsAlone.read_eq_ok_iff (hr : g.ReadsAlone production entry r kind) (hg : g.Ranked) :
    g.read language input production .lenient = .ok n ↔
      ∃ t inner, g.matchExpr (g.body r) .spaced (g.trivia.skip input) = some (t, inner) ∧
        n = g.nodeOf (Text.byteLength input) kind (g.trivia.skip input) t inner := by
  have hroot : ∀ total s t inner,
      g.root? total (.cons entry s t (.cons r (g.trivia.skip s) t inner .nil) .nil) =
        some (g.nodeOf total kind (g.trivia.skip s) t inner) := by
    intro total s t inner
    rw [root?, hr.role_entry]
    simp only [root?, hr.role, Option.some_or]
  rw [SnippetGrammar.read_eq_ok_iff]
  constructor
  · rintro ⟨entry', rest, f, hentry, hparse, hn, -⟩
    cases hr.production_entry.symm.trans hentry
    rw [hr.parse hg] at hparse
    obtain ⟨⟨t, inner⟩, hmatch, heq⟩ := Option.map_eq_some_iff.1 hparse
    cases heq
    rw [hroot] at hn
    exact ⟨_, inner, hmatch, (Option.some.inj hn).symm⟩
  · rintro ⟨t, inner, hmatch, rfl⟩
    exact ⟨entry, t, _, hr.production_entry, by rw [hr.parse hg, hmatch]; rfl, hroot _ _ _ _,
      fun h => by cases h⟩

/-- A text that is read with the blank is read with the comment as well, and declares the same
variables. -/
theorem ReadsAlone.exchange (hr : g.ReadsAlone production entry r kind)
    (hx : g.Exchanges x single) (hsemicolon : single ';' = true)
    (hbody : g.CarriesViews x boundary (g.body r))
    (hp : x.Place p) (hread : g.read language (x.source p) production .lenient = .ok n)
    (hvariables : n.childrenOfKind .variable ≠ [])
    (hkeeps : ∀ v ∈ n.childrenOfKind .variable, ∀ b ∈ v.body, b.Excludes (Text.byteLength p) ∧
      x.KeepsEnd g.trivia (g.leaves (.rule boundary)) p b) :
    ∃ n' t t', g.read language (x.target p) production .lenient = .ok n' ∧ n'.kind = n.kind ∧
      n'.variables (x.target p) = n.variables (x.source p) ∧
      g.leftover production (x.source p) = some t ∧
      g.leftover production (x.target p) = some t' ∧ x.Rest t t' := by
  have hg := hx.ranked
  obtain ⟨t, inner, hmatch, rfl⟩ := (hr.read_eq_ok_iff hg).1 hread
  have hwithin : ∀ {s t inner}, g.matchExpr (g.body r) .spaced s = some (t, inner) →
      inner.Within s t := by
    intro s t inner h
    have hrule : g.matchRule r .spaced s = some (t, .cons r s t inner .nil) :=
      matchRule_of_body hg (by rw [hr.layout]; exact h) (by rw [hr.layout]; rfl)
    exact (run_within hg hrule).2.1
  have hskip : ∀ s, g.trivia.skip s <:+ s := Trivia.skip_suffix hg.lawful
  have hdeclared : g.declared inner ≠ [] := by
    intro hnil
    refine hvariables ?_
    show List.filter _ (g.contribute _ _ _ _).children = _
    rw [contribute_variables, hnil]
    rfl
  obtain ⟨t', inner', hmatch', hrest, hviews⟩ := hbody (hx.skip (.front hp))
    (Trivia.skip_skip hg.lawful _) (Trivia.skip_skip hg.lawful _) hmatch hdeclared
    (keepsAll_of_variables hx hsemicolon (hwithin hmatch) (hskip _) hkeeps)
  refine ⟨_, t, t', (hr.read_eq_ok_iff hg).2 ⟨t', inner', hmatch', rfl⟩, rfl, ?_,
    hr.leftover hg hmatch, hr.leftover hg hmatch', hrest⟩
  rw [variables_nodeOf (hwithin hmatch') (hskip _), variables_nodeOf (hwithin hmatch) (hskip _),
    hviews]

omit [BEq R] in
theorem Exchanges.isTrivia_eq (hx : g.Exchanges x single) (hnew : x.new ≠ []) {t t' : List Char}
    (h : x.Rest t t') : g.trivia.isTrivia t = g.trivia.isTrivia t' := by
  have hskip := hx.skip h
  rw [Trivia.isTrivia, Trivia.isTrivia]
  generalize g.trivia.skip t = u, g.trivia.skip t' = u' at hskip
  have hempty : ∀ y z, z ≠ [] → (y ++ (z ++ x.behind)).isEmpty = false := by
    intro y z hz
    simp [hz]
  cases hskip with
  | behind _ => rfl
  | @front y _ => exact (hempty y x.old hx.old_ne).trans (hempty y x.new hnew).symm

/-- The same of what `parseSnippet` reads leniently. -/
theorem ReadsAlone.exchange_parse (hr : g.ReadsAlone production entry r kind)
    (hengine : Engine.bundled language = .ofGrammar language g) (hx : g.Exchanges x single)
    (hnew : x.new ≠ []) (hsemicolon : single ';' = true)
    (hbody : g.CarriesViews x boundary (g.body r))
    (hp : x.Place p)
    (hparse : parseSnippet (String.ofList (x.source p)) ⟨language, production⟩ false = .ok n)
    (hvariables : n.childrenOfKind .variable ≠ [])
    (hkeeps : ∀ v ∈ n.childrenOfKind .variable, ∀ b ∈ v.body, b.Excludes (Text.byteLength p) ∧
      x.KeepsEnd g.trivia (g.leaves (.rule boundary)) p b) :
    ∃ n' t t', parseSnippet (String.ofList (x.target p)) ⟨language, production⟩ false = .ok n' ∧
      n'.variables (x.target p) = n.variables (x.source p) ∧
      g.leftover production (String.ofList (x.source p)).toList = some t ∧
      g.leftover production (String.ofList (x.target p)).toList = some t' ∧
      g.trivia.isTrivia t = g.trivia.isTrivia t' := by
  obtain ⟨hsupported, hread, hkind⟩ := parseSnippet_eq_ok_iff.1 hparse
  rw [hengine] at hread
  have hsource : g.read language (x.source p) production .lenient = .ok n := by
    rw [← String.toList_ofList (l := x.source p)]
    exact hread
  obtain ⟨n', t, t', htarget, hkind', hsame, ht, ht', hrest⟩ :=
    hr.exchange hx hsemicolon hbody hp hsource hvariables hkeeps
  rw [String.toList_ofList, String.toList_ofList]
  refine ⟨n', t, t', parseSnippet_eq_ok_iff.2 ⟨hsupported, ?_, ?_⟩, hsame, ht, ht',
    hx.isTrivia_eq hnew hrest⟩
  · rw [hengine]
    show g.read language (String.ofList (x.target p)).toList production .lenient = _
    rw [String.toList_ofList, htarget]
  · rw [hkind']
    exact hkind

end SnippetGrammar

namespace Language

/-- A character of a word. -/
def isWordChar : Language → Char → Bool
  | .java => Java.isWordChar
  | .csharp => CSharp.isWordChar
  | .c => C.isWordChar

/-- What is left behind the boundary in front of another declarator. -/
def boundary? : Language → List Char → Option (List Char)
  | .java => Java.grammar.leaves (.rule .declaratorBoundary)
  | .csharp => CSharp.grammar.leaves (.rule .declaratorBoundary)
  | .c => C.grammar.leaves (.rule .declaratorBoundary)

/-- The production that declares variables. -/
def declaring : Language → Target
  | .java => ⟨.java, .field⟩
  | .csharp => ⟨.csharp, .field⟩
  | .c => ⟨.c, .declaration⟩

end Language

section Languages

variable {language : Language} {x : Exchange} {p : List Char} {n : Node} {strict : Bool}

/-- Behind the text there is a blank between two tokens, and a block comment to stand for it: there
are places from the text's on where literals, blanks and comments are read, and none of them
reaches over the blank or the comment. -/
structure Exchange.BetweenTokens (x : Exchange) (language : Language) (p : List Char) : Prop
    extends x.IsComment where
  place : x.Place p
  closed : x.Closed language.literal? language.trivia language.isWordChar

/-- A comment may stand for the blank behind a text: if a declaration of variables is read with the
blank, and the blank is in no initializer, then one is read with the comment, and its variables have
the same names and initializers. -/
def CommentKeepsVariables (language : Language) (x : Exchange) (p : List Char) (strict : Bool) :
    Prop :=
  ∀ n, parseSnippet (String.ofList (x.source p)) language.declaring strict = .ok n →
    n.childrenOfKind .variable ≠ [] →
    (∀ v ∈ n.childrenOfKind .variable, ∀ b ∈ v.body, b.Excludes (Text.byteLength p)) →
    ∃ n', parseSnippet (String.ofList (x.target p)) language.declaring strict = .ok n' ∧
      n'.variables (x.target p) = n.variables (x.source p)

/-- Without the strict boundary. -/
theorem exists_parseSnippet_target (hx : x.BetweenTokens language p)
    (hattributes : language = .c → C.KeepsAttributes x)
    (hparse : parseSnippet (String.ofList (x.source p)) language.declaring false = .ok n)
    (hvariables : n.childrenOfKind .variable ≠ [])
    (hkeeps : ∀ v ∈ n.childrenOfKind .variable, ∀ b ∈ v.body, b.Excludes (Text.byteLength p) ∧
      x.KeepsEnd language.trivia language.boundary? p b) :
    ∃ n' t t', parseSnippet (String.ofList (x.target p)) language.declaring false = .ok n' ∧
      n'.variables (x.target p) = n.variables (x.source p) ∧
      language.declaring.leftover (String.ofList (x.source p)) = some t ∧
      language.declaring.leftover (String.ofList (x.target p)) = some t' ∧
      language.trivia.isTrivia t = language.trivia.isTrivia t' := by
  obtain ⟨hcomment, hp, hclosed⟩ := hx
  have hnew : x.new ≠ [] := by
    obtain ⟨u, hu, -⟩ := Text.blockComment?_eq_some hcomment.new
    rw [hu]
    exact List.cons_ne_nil _ _
  cases language with
  | java =>
      have hr : Java.grammar.ReadsAlone .field .fieldEntry .fieldDeclaration .field :=
        ⟨rfl, rfl, ⟨rfl, rfl⟩, rfl, rfl⟩
      exact hr.exchange_parse rfl (Java.commented.exchangesGroups hcomment hclosed).toExchanges
        hnew rfl (Java.carriesViews_fieldDeclaration hcomment hclosed) hp hparse hvariables hkeeps
  | csharp =>
      have hr : CSharp.grammar.ReadsAlone .field .fieldEntry .fieldDeclaration .field :=
        ⟨rfl, rfl, ⟨rfl, rfl⟩, rfl, rfl⟩
      exact hr.exchange_parse rfl (CSharp.commented.exchangesGroups hcomment hclosed).toExchanges
        hnew rfl (CSharp.carriesViews_fieldDeclaration hcomment hclosed) hp hparse hvariables hkeeps
  | c =>
      have hr : C.grammar.ReadsAlone .declaration .declarationEntry .declaration .declaration :=
        ⟨rfl, rfl, ⟨rfl, rfl⟩, rfl, rfl⟩
      exact hr.exchange_parse rfl (C.commented.exchangesGroups hcomment hclosed).toExchanges
        hnew rfl (C.carriesViews_declaration hcomment hclosed (hattributes rfl)) hp hparse
        hvariables hkeeps

theorem strictAtLeftover_of_read {t : Target} {text : String}
    (h : parseSnippet text t true = .ok n) (hrest : t.leftover text = some []) :
    StrictAtLeftover t text :=
  ⟨fun _ => ⟨n, [], (parseSnippet_strict_iff.1 h).1, hrest, rfl⟩, fun _ => ⟨n, h⟩⟩

/-- A comment may stand for a blank between two tokens wherever the ends of the initializers are
seen with either, and in C the attributes. Under the strict boundary this must be the place where
the rule stopped. -/
theorem commentKeepsVariables_of_keepsEnd (hx : x.BetweenTokens language p)
    (hends : ∀ n, parseSnippet (String.ofList (x.source p)) language.declaring false = .ok n →
      ∀ v ∈ n.childrenOfKind .variable, ∀ b ∈ v.body,
        x.KeepsEnd language.trivia language.boundary? p b)
    (hattributes : language = .c → C.KeepsAttributes x)
    (hstrict : strict = true → ∀ s ∈ [x.source p, x.target p],
      StrictAtLeftover language.declaring (String.ofList s)) :
    CommentKeepsVariables language x p strict := by
  intro n hparse hvariables houtside
  have hlenient : parseSnippet (String.ofList (x.source p)) language.declaring false = .ok n := by
    cases strict with
    | false => exact hparse
    | true => exact (parseSnippet_strict_iff.1 hparse).1
  obtain ⟨n', t, t', hparse', hsame, ht, ht', htrivia⟩ :=
    exists_parseSnippet_target hx hattributes hlenient hvariables fun v hv b hb =>
      ⟨houtside v hv b hb, hends n hlenient v hv b hb⟩
  cases strict with
  | false => exact ⟨n', hparse', hsame⟩
  | true =>
      have hsource := hstrict rfl (x.source p) (by simp)
      have htarget := hstrict rfl (x.target p) (by simp)
      obtain ⟨m, rest, -, hrest, hrestTrivia⟩ := hsource.1 ⟨n, hparse⟩
      cases ht.symm.trans hrest
      have hlanguage : language.declaring.language = language := by cases language <;> rfl
      rw [hlanguage, htrivia] at hrestTrivia
      obtain ⟨m', hm'⟩ := htarget.2 ⟨n', t', hparse', ht', by rwa [hlanguage]⟩
      obtain ⟨hm, -⟩ := parseSnippet_strict_iff.1 hm'
      cases hparse'.symm.trans hm
      exact ⟨n', hm', hsame⟩

/-- A comment may stand between an initializer and its comma. -/
theorem commentKeepsVariables_behind_value :
    let x : Exchange := ⟨[' '], "/* c */".toList, ", b = 2;".toList, (· <:+ "int a = 1".toList)⟩
    x.BetweenTokens .java "int a = 1".toList ∧
      CommentKeepsVariables .java x "int a = 1".toList true := by
  intro x
  have hbetween : x.BetweenTokens .java "int a = 1".toList :=
    ⟨⟨⟨' ', rfl, rfl⟩, by decide +kernel⟩, List.suffix_refl _, Java.closed_of_plain rfl (by decide)⟩
  have hsource : parseSnippet "int a = 1 , b = 2;" ⟨.java, .field⟩ true =
      .ok ⟨.field, some "a", [⟨.variable, some "a", [], ⟨4, 9⟩, some ⟨8, 9⟩⟩,
        ⟨.variable, some "b", [], ⟨12, 17⟩, some ⟨16, 17⟩⟩], ⟨0, 18⟩, none⟩ :=
    Outcome.eq_ok_of_toOption (by decide +kernel)
  have htarget : parseSnippet "int a = 1/* c */, b = 2;" ⟨.java, .field⟩ true =
      .ok ⟨.field, some "a", [⟨.variable, some "a", [], ⟨4, 9⟩, some ⟨8, 9⟩⟩,
        ⟨.variable, some "b", [], ⟨18, 23⟩, some ⟨22, 23⟩⟩], ⟨0, 24⟩, none⟩ :=
    Outcome.eq_ok_of_toOption (by decide +kernel)
  refine ⟨hbetween, commentKeepsVariables_of_keepsEnd hbetween (fun n hn => ?_) nofun fun _ => ?_⟩
  · have hn' : parseSnippet "int a = 1 , b = 2;" ⟨.java, .field⟩ false = .ok n := hn
    cases hn'.symm.trans (parseSnippet_strict_iff.1 hsource).1
    decide +kernel
  · refine List.forall_mem_cons.2 ⟨?_, List.forall_mem_singleton.2 ?_⟩
    · exact strictAtLeftover_of_read hsource (by decide +kernel)
    · exact strictAtLeftover_of_read htarget (by decide +kernel)

/-- A comment may not stand behind a comma: the boundary does not look past it, so the initializer
in front goes on. -/
theorem not_commentKeepsVariables_behind_comma :
    ¬ ∀ language x p strict, Exchange.BetweenTokens x language p →
      CommentKeepsVariables language x p strict := by
  intro h
  let x : Exchange := ⟨[' '], "/* c */".toList, "b = 2;".toList, (· <:+ "int a = 1,".toList)⟩
  have hbetween : x.BetweenTokens .java "int a = 1,".toList :=
    ⟨⟨⟨' ', rfl, rfl⟩, by decide +kernel⟩, List.suffix_refl _, Java.closed_of_plain rfl (by decide)⟩
  have hsource : parseSnippet "int a = 1, b = 2;" ⟨.java, .field⟩ true =
      .ok ⟨.field, some "a", [⟨.variable, some "a", [], ⟨4, 9⟩, some ⟨8, 9⟩⟩,
        ⟨.variable, some "b", [], ⟨11, 16⟩, some ⟨15, 16⟩⟩], ⟨0, 17⟩, none⟩ :=
    Outcome.eq_ok_of_toOption (by decide +kernel)
  have htarget : parseSnippet "int a = 1,/* c */b = 2;" ⟨.java, .field⟩ true =
      .ok ⟨.field, some "a", [⟨.variable, some "a", [], ⟨4, 22⟩, some ⟨8, 22⟩⟩], ⟨0, 23⟩, none⟩ :=
    Outcome.eq_ok_of_toOption (by decide +kernel)
  obtain ⟨n', hn', hsame⟩ := h .java x "int a = 1,".toList true hbetween _ hsource
    (List.cons_ne_nil _ _) (by decide +kernel)
  cases htarget.symm.trans hn'
  exact absurd hsame (by decide +kernel)

end Languages

end FeatureTree
