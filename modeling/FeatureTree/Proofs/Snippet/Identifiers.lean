import FeatureTree.Proofs.Language.CDeclarators
import FeatureTree.Proofs.Node.Identifiers

/-!
# The spans of identifiers in snippets

Names are words, and nothing is trimmed off a word. The names of special members in C# hold
more than a word, but blanks only in front of what they end with, and no symbol of an operator
reads like a comment. Only the name of a conversion may hold comments, and may end in one: it
is what stands between the word `operator` and the parenthesis, whatever that is.
-/

namespace FeatureTree

namespace Grammar

variable {R : Type} {g : Grammar R} {u v : List Char}

/-- Blanks in front of what is kept are kept as well. -/
theorem trim_spaced (hg : g.Spaced) (hu : ∀ c ∈ u, c ∈ Text.spaces ∨ IsSolid c) (hv : v ≠ [])
    (htrim : g.trivia.trim v = v) : g.trivia.trim (u ++ v) = u ++ v := by
  refine Trivia.trim_front hg.ranked.lawful (fun c hc s => ?_) hv htrim
  rcases hu c hc with hspace | hsolid
  · right
    rw [Trivia.piece?, hg.blank s (isBlank_of_space hspace)]
  · exact .inl (hg.solid s hsolid.1 hsolid.2)

end Grammar

/-- Nothing is trimmed off what the rule takes. -/
def SnippetGrammar.KeepsWhole {R : Type} (g : SnippetGrammar R) (r : R) : Prop :=
  ∀ ⦃before after inner⦄, g.Matched r before after inner →
    g.trivia.trim (Forest.taken before after) = Forest.taken before after

/-! ## The languages -/

theorem Java.keepsWhole_name {r : Rule} (hr : grammar.role r = .name) : grammar.KeepsWhole r := by
  obtain rfl : r = .declName := by cases r <;> first | rfl | cases hr
  rintro before after inner ⟨l, hmatch⟩
  obtain ⟨_, hbody, -⟩ := (Grammar.matchRule_eq_some_iff ranked).1 hmatch
  obtain ⟨-, w, rfl, hw, -⟩ := run_of_identifier hbody
  rw [Forest.taken_append]
  exact Grammar.trim_solid spaced fun c hc =>
    Grammar.isSolid_of_class isWordChar (by decide) (hw c hc)

theorem C.keepsWhole_name {r : Rule} (hr : grammar.role r = .name) : grammar.KeepsWhole r := by
  obtain rfl : r = .declName := by cases r <;> first | rfl | cases hr
  rintro before after inner ⟨l, hmatch⟩
  obtain ⟨_, hbody, -⟩ := (Grammar.matchRule_eq_some_iff ranked).1 hmatch
  obtain ⟨-, w, rfl, hw, -⟩ := run_of_identifier hbody
  rw [Forest.taken_append]
  exact Grammar.trim_solid spaced fun c hc =>
    Grammar.isSolid_of_class isWordChar (by decide) (hw c hc)

namespace CSharp

open Grammar

variable {l : Layout} {r : Rule} {s t : List Char} {f : Forest Rule} {p : Node}

theorem isSolid_of_wordChar {c : Char} (hc : isWordChar c = true) : IsSolid c :=
  isSolid_of_class isWordChar (by decide) hc

/-- The text of an identifier. -/
theorem solid_of_identifier (h : grammar.matchRule .identifier l s = some (t, f)) :
    ∃ w, s = w ++ t ∧ w ≠ [] ∧ ∀ c ∈ w, IsSolid c := by
  have hlt := (matchRule_rest ranked h).2 rfl
  obtain ⟨v, hv, -, w, rfl, hw, -⟩ := run_of_identifier h
  have hsolid : ∀ c ∈ w, IsSolid c := fun c hc => isSolid_of_wordChar (hw c hc)
  rcases hv with rfl | rfl
  · refine ⟨w, rfl, ?_, hsolid⟩
    rintro rfl
    exact absurd hlt (Nat.lt_irrefl _)
  · exact ⟨'@' :: w, rfl, List.cons_ne_nil _ _, List.forall_mem_cons.2 ⟨by decide, hsolid⟩⟩

/-- The blanks inside a name. -/
theorem spaces_of_ws (h : grammar.matchExpr (.star Lexical.ws) .token s = some (t, f)) :
    ∃ gap, s = gap ++ t ∧ ∀ c ∈ gap, c ∈ Text.spaces := by
  obtain ⟨gap, rfl, hgap, -⟩ := chars_of_star ranked takesChar_ws rfl h
  exact ⟨gap, rfl, fun c hc => takesChar_ws_iff.1 (hgap c hc)⟩

/-- The symbol of an operator is one of those that are listed, or a word. -/
theorem symbol_of_overloadableOp (h : grammar.matchRule .overloadableOp l s = some (t, f)) :
    ∃ symbol ∈ ["true", "false"] ++ Rule.operatorSymbols, s = symbol.toList ++ t := by
  obtain ⟨_, hbody, -⟩ := (matchRule_eq_some_iff ranked).1 h
  obtain hword | ⟨-, hsymbol⟩ := matchExpr_either_iff.1 hbody
  · obtain ⟨word, hmem, heq, -⟩ := word_of_match takesChar_identChar hword
    exact ⟨word, List.mem_append_left _ hmem, heq⟩
  · rw [Expr.oneOf, matchExpr_choice] at hsymbol
    obtain ⟨e, he, htext⟩ := List.exists_of_findSome?_eq_some hsymbol
    obtain ⟨symbol, hmem, rfl⟩ := List.mem_map.1 he
    exact ⟨symbol, List.mem_append_right _ hmem, (matchExpr_text_iff.1 htext).1⟩

theorem trim_symbol : ∀ symbol ∈ ["true", "false"] ++ Rule.operatorSymbols,
    symbol.toList ≠ [] ∧ grammar.trivia.trim symbol.toList = symbol.toList := by decide

theorem keepsWhole_destructorName : grammar.KeepsWhole .destructorName := by
  rintro before after inner ⟨l, hmatch⟩
  obtain ⟨_, hbody, -⟩ := (matchRule_eq_some_iff ranked).1 hmatch
  obtain ⟨s, _, _, hsign, hrest, -⟩ := matchExpr_both_iff.1 hbody
  obtain ⟨s', _, _, hblanks, hname, -⟩ := matchExpr_both_iff.1 hrest
  obtain ⟨rfl, -⟩ := matchExpr_text_iff.1 hsign
  obtain ⟨gap, hgap, hspaces⟩ := spaces_of_ws hblanks
  obtain ⟨w, hw, hne, hsolid⟩ := solid_of_identifier hname
  have hbetween : s = gap ++ (w ++ after) := by
    rw [← (show s' = w ++ after from hw)]
    exact hgap
  subst hbetween
  have htaken : "~".toList ++ (gap ++ (w ++ after)) = ('~' :: gap) ++ w ++ after := by
    simp
  rw [htaken, Forest.taken_append]
  exact trim_spaced spaced (List.forall_mem_cons.2 ⟨.inr (by decide), fun c hc =>
    .inl (hspaces c hc)⟩) hne (trim_solid spaced hsolid)

theorem keepsWhole_operatorName : grammar.KeepsWhole .operatorName := by
  rintro before after inner ⟨l, hmatch⟩
  obtain ⟨_, hbody, -⟩ := (matchRule_eq_some_iff ranked).1 hmatch
  obtain ⟨s, _, _, hword, hrest, -⟩ := matchExpr_both_iff.1 hbody
  obtain ⟨s', _, _, hblanks, hsymbol, -⟩ := matchExpr_both_iff.1 hrest
  obtain ⟨rfl, -⟩ := matchExpr_text_iff.1 hword
  obtain ⟨gap, hgap, hspaces⟩ := spaces_of_ws hblanks
  obtain ⟨symbol, hmem, hw⟩ := symbol_of_overloadableOp hsymbol
  obtain ⟨hne, htrim⟩ := trim_symbol symbol hmem
  have hbetween : s = gap ++ (symbol.toList ++ after) := by
    rw [← (show s' = symbol.toList ++ after from hw)]
    exact hgap
  subst hbetween
  have hsolid : ∀ c ∈ "operator".toList, IsSolid c := by decide
  rw [← List.append_assoc, ← List.append_assoc, Forest.taken_append]
  exact trim_spaced spaced (List.forall_mem_append.2 ⟨fun c hc => .inr (hsolid c hc), fun c hc =>
    .inl (hspaces c hc)⟩) hne htrim

theorem keepsWhole_indexerName : grammar.KeepsWhole .indexerName := by
  rintro before after inner ⟨l, hmatch⟩
  obtain ⟨word, hmem, rfl, -⟩ := isWord_indexer.exists_word ranked takesChar_identChar hmatch
  obtain rfl := List.mem_singleton.1 hmem
  rw [Forest.taken_append]
  decide

theorem keepsWhole_declName : grammar.KeepsWhole .declName := by
  rintro before after inner ⟨l, hmatch⟩
  obtain ⟨_, hbody, -⟩ := (matchRule_eq_some_iff ranked).1 hmatch
  obtain ⟨w, rfl, -, hsolid⟩ := solid_of_identifier hbody
  rw [Forest.taken_append]
  exact trim_solid spaced hsolid

/-- All names are kept whole but for those of conversions. -/
theorem keepsWhole_name (hr : grammar.role r = .name) (hne : r ≠ .conversionName) :
    grammar.KeepsWhole r := by
  have hnames : ∀ r ∈ Rule.all, grammar.role r = .name →
      r ∈ [Rule.destructorName, .operatorName, .conversionName, .indexerName, .declName] := by
    decide
  have hmem := hnames r (Rule.mem_all r) hr
  simp only [List.mem_cons, List.not_mem_nil, or_false] at hmem
  rcases hmem with rfl | rfl | rfl | rfl | rfl
  · exact keepsWhole_destructorName
  · exact keepsWhole_operatorName
  · exact absurd rfl hne
  · exact keepsWhole_indexerName
  · exact keepsWhole_declName

/-- Only conversions have the name of one. -/
theorem eq_conversion_of_mentions :
    ∀ r ∈ Rule.all, Rule.conversionName ∈ (grammar.body r).mentions → r = .conversionDeclaration := by
  decide +kernel

/-- The node is the conversion operator that stands somewhere in the text. -/
abbrev IsConversion (text : List Char) (n : Node) : Prop :=
  grammar.MadeBy text .conversionDeclaration n

end CSharp

namespace SnippetGrammar

variable {R : Type} {g : SnippetGrammar R} {language : Language} {input : List Char}
  {production : Production} {boundary : Boundary} {n p i : Node} {r : R}

/-- The names that a node of the rule can have are kept whole. -/
def KeepsNames (g : SnippetGrammar R) (r : R) : Prop :=
  ∀ k, g.role k = .name →
    (k ∈ (g.body r).mentions ∨ ∃ q, g.role q = .transparent ∧ k ∈ (g.body q).mentions) →
      g.KeepsWhole k

/-- The span of an identifier cuts out the front of its name, and all of it if the name is kept
whole. -/
theorem MadeBy.cuts (hg : g.Ranked) (hkinds : ∀ r, g.role r ≠ .node .identifier)
    (h : g.MadeBy input r p) (hi : i ∈ p.children) (hkind : i.kind = .identifier) :
    i.CutsFront input ∧ (g.KeepsNames r → i.CutsName input) := by
  obtain ⟨k, before, after, inner, hrole, hcalled, hbefore, hmatched, rfl⟩ :=
    h.identifier hg hkinds hi hkind
  have hafter := (hmatched.within hg).suffix
  exact ⟨cutsFront_identifierOf k hbefore hafter, fun hkeeps =>
    cutsName_identifierOf k hbefore hafter (hkeeps k hrole hcalled hmatched)⟩

theorem read_madeBy [BEq R] (hg : g.Regular)
    (h : g.read language input production boundary = .ok n) : ∃ r, g.MadeBy input r n := by
  obtain ⟨r, kind, inner, rest, hrole, hmatch, rfl, -⟩ := read_root hg h
  exact ⟨r, kind, g.trivia.skip input, rest, inner, hrole,
    Trivia.skip_suffix hg.ranked.lawful input, ⟨.spaced, hmatch⟩, rfl⟩

/-- The identifiers of a text that is read, each with the rule that made the node around it. -/
theorem read_cuts [BEq R] (hg : g.Regular) (hkinds : ∀ r, g.role r ≠ .node .identifier)
    (h : g.read language input production boundary = .ok n) :
    n.kind ≠ .identifier ∧ ∀ p ∈ n.preorder, ∀ i ∈ p.children, i.kind = .identifier →
      i.CutsFront input ∧ ∃ r, g.MadeBy input r p ∧ (g.KeepsNames r → i.CutsName input) := by
  obtain ⟨r, hn⟩ := read_madeBy hg h
  constructor
  · obtain ⟨kind, before, after, inner, hrole, -, -, rfl⟩ := hn
    exact fun hkind => hkinds r (hrole.trans (congrArg Role.node hkind))
  · intro p hp i hi hkind
    obtain ⟨r, hp⟩ | ⟨name, span, rfl⟩ := hn.everywhere hg.ranked p hp
    · obtain ⟨hfront, hname⟩ := hp.cuts hg.ranked hkinds hi hkind
      exact ⟨hfront, r, hp, hname⟩
    · cases hi

end SnippetGrammar

/-- Names in C# are kept whole everywhere but in conversions. -/
theorem CSharp.keepsNames {r : Rule} (hr : r ≠ .conversionDeclaration) : grammar.KeepsNames r := by
  intro k hk hcalled
  refine keepsWhole_name hk ?_
  rintro rfl
  rcases hcalled with hmem | ⟨q, hq, hmem⟩
  · exact hr (eq_conversion_of_mentions r (Rule.mem_all r) hmem)
  · rw [eq_conversion_of_mentions q (Rule.mem_all q) hmem] at hq
    cases hq

/-- The span of an identifier cuts its name out of the text, in every node of every tree. Only
the identifier of a conversion operator in C# may be cut short: its name begins with the text of
its span. -/
theorem parseSnippet_identifiers {text : String} {t : Target} {strict : Bool} {n : Node}
    (h : parseSnippet text t strict = .ok n) :
    n.kind ≠ .identifier ∧ ∀ p ∈ n.preorder, ∀ i ∈ p.children, i.kind = .identifier →
      i.CutsFront text.toList ∧
        (¬ (t.language = .csharp ∧ CSharp.IsConversion text.toList p) →
          i.CutsName text.toList) := by
  obtain ⟨-, hparse, -⟩ := parseSnippet_eq_ok_iff.1 h
  obtain ⟨language, production⟩ := t
  cases language with
  | java =>
      have hkinds : ∀ r, Java.grammar.role r ≠ .node .identifier := by rintro r; cases r <;> nofun
      obtain ⟨hroot, hcuts⟩ := SnippetGrammar.read_cuts Java.regular hkinds hparse
      refine ⟨hroot, fun p hp i hi hkind => ?_⟩
      obtain ⟨hfront, r, -, hname⟩ := hcuts p hp i hi hkind
      exact ⟨hfront, fun _ => hname fun _ hk _ => Java.keepsWhole_name hk⟩
  | csharp =>
      have hkinds : ∀ r, CSharp.grammar.role r ≠ .node .identifier := by rintro r; cases r <;> nofun
      obtain ⟨hroot, hcuts⟩ := SnippetGrammar.read_cuts CSharp.regular hkinds hparse
      refine ⟨hroot, fun p hp i hi hkind => ?_⟩
      obtain ⟨hfront, r, hmade, hname⟩ := hcuts p hp i hi hkind
      refine ⟨hfront, fun hother => hname (CSharp.keepsNames ?_)⟩
      rintro rfl
      exact hother ⟨rfl, hmade⟩
  | c =>
      have hkinds : ∀ r, C.grammar.role r ≠ .node .identifier := by rintro r; cases r <;> nofun
      obtain ⟨hroot, hcuts⟩ := SnippetGrammar.read_cuts C.regular hkinds hparse
      refine ⟨hroot, fun p hp i hi hkind => ?_⟩
      obtain ⟨hfront, r, -, hname⟩ := hcuts p hp i hi hkind
      exact ⟨hfront, fun _ => hname fun _ hk _ => C.keepsWhole_name hk⟩

/-- The name of a conversion may hold a comment at its end, which its span leaves out. -/
theorem parseSnippet_identifiers_conversion :
    let text := "implicit operator int/**/(A a);"
    let i : Node := .leaf .identifier (some "operator int/**/") ⟨9, 21⟩
    let n : Node := ⟨.method, some "operator int/**/",
      [i, .leaf .parameter (some "a") ⟨26, 29⟩], ⟨0, 31⟩, none⟩
    parseSnippet text ⟨.csharp, .method⟩ true = .ok n ∧ i.CutsFront text.toList ∧
      ¬ i.CutsName text.toList ∧ CSharp.IsConversion text.toList n := by
  intro text i n
  have h : parseSnippet text ⟨.csharp, .method⟩ true = .ok n :=
    Outcome.eq_ok_of_toOption (by decide +kernel)
  obtain ⟨hfront, hname⟩ := (parseSnippet_identifiers h).2 n List.mem_cons_self i
    List.mem_cons_self rfl
  have hcut : ¬ i.CutsName text.toList := by
    rintro ⟨name, hi, hslice⟩
    cases hi
    exact absurd hslice (by decide)
  refine ⟨h, hfront, hcut, ?_⟩
  by_contra hother
  exact hcut (hname fun hconversion => hother hconversion.2)

end FeatureTree
