import FeatureTree.Proofs.Exchange.Variables
import FeatureTree.Proofs.Language.Methods
import FeatureTree.Proofs.Snippet.Declarators
import FeatureTree.Proofs.Snippet.Uncommented

/-!
# Methods as they are written

A method with a name, parameters and a block is read as just that: the root takes the text between
the blanks around it, and its children are the identifier and the parameters, in their order.

What the rules of a production record is known from the tokens alone (`ReadsFirst`). From the
records follows what the node says of itself; its spans nest because nothing in such a text
begins a comment.
-/

namespace FeatureTree

open scoped Tokens

/-- Blanks stand around a text, and nothing in the text begins a comment. -/
structure Padded (lead code trail : List Char) : Prop where
  lead : ∀ c ∈ lead, c ∈ Text.spaces
  trail : ∀ c ∈ trail, c ∈ Text.spaces
  token : Grammar.IsToken code
  plain : ∀ c ∈ code, c ∉ ['/', '#', '\\']
  last : ∀ c ∈ code.getLast?, Text.isBlank c = false

namespace Node

/-- The node is a method with the name, the parameters and the block, and it is the code. -/
structure IsMethod (n : Node) (text code name : List Char) (parameters : List (List Char))
    (block : List Char) : Prop where
  kind : n.kind = .method
  named : n.name = some (String.ofList name)
  children : n.children.map (fun c => (c.kind, c.name)) =
    (.identifier, some (String.ofList name)) ::
      parameters.map fun w => (.parameter, some (String.ofList w))
  body : n.body.bind (·.slice? text) = some block
  whole : n.text? text = some code
  spans : n.checkSpans = .ok ()

/-- All children of a method are its identifier and its parameters. -/
theorem HasShape.children_method {n : Node} {language : Language} (h : n.HasShape language)
    (hkind : n.kind = .method) :
    n.children.map (fun c => (c.kind, c.name)) =
      (.identifier, n.name) ::
        ((n.childrenOfKind .parameter).map (·.name)).map fun w => (.parameter, w) := by
  rw [HasShape, hkind] at h
  obtain ⟨ps, ⟨i, hchildren, hi, hname, -⟩, hps⟩ := h
  have hparameters : n.childrenOfKind .parameter = ps := by
    rw [childrenOfKind, hchildren, List.filter_cons_of_neg (by rw [hi]; decide)]
    exact List.filter_eq_self.2 fun p hp => beq_iff_eq.2 (hps p hp)
  rw [hparameters, hchildren, List.map_cons, List.map_map, hi, hname]
  exact congrArg _ (List.map_congr_left fun p hp => by rw [hps p hp]; rfl)

end Node

namespace SnippetGrammar

open Grammar

variable {R : Type} [DecidableEq R] {g : SnippetGrammar R} {isWordChar : Char → Bool}
  {language : Language} {production : Production} {kind : Kind} {tokens : List (List Char)}
  {o : Outline} {input lead code trail before after : List Char} {inner : Forest R} {n : Node}

/-- The first rule of the production that does not refuse the tokens reads them. -/
def ReadsFirst (g : SnippetGrammar R) (isWordChar : Char → Bool) (production : Production)
    (kind : Kind) (tokens : List (List Char)) (o : Outline) (trail : List Char) : Prop :=
  ∃ r ∈ g.alternatives production, g.layout r = .spaced ∧ g.role r = .node kind ∧
    (∀ r' ∈ (g.alternatives production).takeWhile (· != r),
      g.Refuses isWordChar (.rule r') tokens) ∧
    g.ReadsTo isWordChar (g.body r) tokens o trail

theorem ReadsFirst.read (hg : g.Regular)
    (h : g.ReadsFirst isWordChar production kind tokens o trail)
    (hs : Spelled isWordChar tokens input) (language : Language) :
    ∃ inner, g.outline inner = o ∧ inner.Within (g.trivia.skip input) trail ∧
      g.read language input production .lenient =
        .ok (g.nodeOf (Text.byteLength input) kind (g.trivia.skip input) trail inner) := by
  obtain ⟨r, hr, hlayout, hrole, hothers, hreads⟩ := h
  obtain ⟨inner, hmatch, ho⟩ := hreads hs
  have hrule : g.matchRule r .spaced (g.trivia.skip input) =
      some (trail, .cons r (g.trivia.skip input) trail inner .nil) :=
    matchRule_of_body hg.ranked (by rw [hlayout]; exact hmatch) (by rw [hlayout]; rfl)
  refine ⟨inner, ho, (run_within hg.ranked hrule).2.1, (read_eq_ok_iff_tried hg).2 ⟨?_, nofun⟩⟩
  refine findSome?_eq_some_iff_takeWhile.2 ⟨r, hr, ?_, fun r' hr' => ?_⟩
  · rw [rootAt, hrule, Option.bind_some, root?, hrole]
  · rw [rootAt, show g.matchRule r' .spaced (g.trivia.skip input) = none from hothers r' hr' hs,
      Option.bind_none]

omit [DecidableEq R] in
theorem parameters_nodeOf {total : Nat} :
    ((g.nodeOf total kind before after inner).childrenOfKind .parameter).map (·.name) =
      (g.outline inner).parameters.map (·.map String.ofList) := by
  show List.map _ (List.filter _ (g.contribute _ _ _ _).children) = _
  rw [contribute_nodesOf (by decide), outline, List.map_append, List.map_map, List.map_map]
  exact List.map_congr_left fun m _ => name_nodeOf rfl

theorem checkSpans_of_read (hg : g.Clean) (hopen : g.trivia.Uncommented input)
    {boundary : Boundary} (h : g.read language input production boundary = .ok n) :
    n.checkSpans = .ok () := by
  obtain ⟨hi, hplaced, -⟩ := read_placed hg.toRegular h
  have hordered : ∀ m ∈ n.preorder, m.Ordered input := by
    have := hplaced.ordered
    rwa [Node.preorderAll, Node.preorderAll, List.append_nil] at this
  exact Node.checkSpans_of_nested hordered (read_nested hg hopen h)

/-- The strict boundary accepts what stands between blanks, and the root is what stands there. -/
theorem ReadsFirst.read_padded (hg : g.Clean) (hspaced : g.Spaced)
    (h : g.ReadsFirst isWordChar production kind tokens o trail) (hp : Padded lead code trail)
    (hs : Spelled isWordChar tokens (lead ++ (code ++ trail))) (language : Language) :
    ∃ inner n, g.outline inner = o ∧ inner.Within (code ++ trail) trail ∧
      n = g.nodeOf (Text.byteLength (lead ++ (code ++ trail))) kind (code ++ trail) trail inner ∧
      n.span = ⟨Text.byteLength lead, Text.byteLength (lead ++ code)⟩ ∧
      g.read language (lead ++ (code ++ trail)) production .strict = .ok n := by
  obtain ⟨inner, ho, hwithin, hread⟩ := h.read hg.toRegular hs language
  have hskip : g.trivia.skip (lead ++ (code ++ trail)) = code ++ trail :=
    between_gap hspaced hp.lead (hp.token.head)
  rw [hskip] at hwithin hread
  have htrim : g.trivia.trim code = code := trim_plain hspaced hp.plain hp.last
  have hspan := g.spanOf_eq lead code trail
  rw [htrim] at hspan
  refine ⟨inner, _, ho, hwithin, rfl, hspan, ?_⟩
  obtain ⟨hfirst, -⟩ := (read_eq_ok_iff_tried hg.toRegular).1 hread
  refine (read_eq_ok_iff_tried hg.toRegular).2 ⟨hfirst, fun _ => ?_⟩
  rw [← List.append_assoc]
  refine (checkTrailing_eq_ok_iff ?_).2 (isTrivia_gap hspaced hp.trail)
  rw [List.append_assoc]
  exact (congrArg Span.stop hspan).symm

/-- What the tokens of a method contribute is what the parsed method says. -/
theorem ReadsFirst.parse_method (hg : g.Clean) (hspaced : g.Spaced)
    (hengine : Engine.bundled language = .ofGrammar language g)
    (hsupported : Target.isSupported ⟨language, .method⟩ = true) {name block : List Char}
    {parameters : List (List Char)}
    (h : g.ReadsFirst isWordChar .method .method tokens (.ofMember name parameters block) trail)
    (hp : Padded lead code trail) (hs : Spelled isWordChar tokens (lead ++ (code ++ trail)))
    (hopen : g.trivia.Uncommented (lead ++ (code ++ trail))) :
    ∃ n, parseSnippet (String.ofList (lead ++ (code ++ trail))) ⟨language, .method⟩ true = .ok n ∧
      n.IsMethod (lead ++ (code ++ trail)) code name parameters block := by
  obtain ⟨inner, n, ho, hwithin, hn, hspan, hread⟩ := h.read_padded hg hspaced hp hs language
  have hkind : n.kind = .method := by rw [hn]; rfl
  have hparse : parseSnippet (String.ofList (lead ++ (code ++ trail))) ⟨language, .method⟩ true =
      .ok n := by
    refine parseSnippet_eq_ok_iff.2 ⟨hsupported, ?_, by rw [hkind]; rfl⟩
    rw [hengine]
    show g.read language (String.ofList _).toList .method .strict = _
    rwa [String.toList_ofList]
  obtain ⟨hnames, hparameters, hbodies⟩ := Outline.mk.inj ho
  have hname : n.name = some (String.ofList name) := by rw [hn, name_nodeOf rfl, hnames]; rfl
  have hchildren : (n.childrenOfKind .parameter).map (·.name) =
      parameters.map fun w => some (String.ofList w) := by
    rw [hn, parameters_nodeOf, ho, Outline.ofMember, List.map_map]
    rfl
  refine ⟨n, hparse, hkind, hname, ?_, ?_, ?_, checkSpans_of_read hg hopen hread⟩
  · rw [(Node.allShaped_iff.1 (parseSnippet_allShaped hparse)).1.children_method hkind, hname,
      hchildren, List.map_map]
    rfl
  · rw [hn, body_nodeOf hwithin (List.suffix_append lead _), ← List.head?_map, hbodies]
    rfl
  · rw [Node.text?, hspan, ← List.append_assoc]
    exact Span.slice?_append lead code trail

end SnippetGrammar

/-! ## The languages -/

section Text

variable {isName : List Char → Bool} {P : Char → Prop} {modifier result name block : List Char}
  {ps : List (Parameter isName)}

theorem forall_mem_intercalate {sep : List Char} {ws : List (List Char)} (hsep : ∀ c ∈ sep, P c)
    (hws : ∀ w ∈ ws, ∀ c ∈ w, P c) : ∀ c ∈ sep.intercalate ws, P c := by
  induction ws with
  | nil => exact fun c hc => nomatch hc
  | cons w ws ih =>
      obtain ⟨hw, hmore⟩ := List.forall_mem_cons.1 hws
      cases ws with
      | nil => rwa [List.intercalate_singleton]
      | cons v ws =>
          rw [List.intercalate_cons_cons]
          exact List.forall_mem_append.2 ⟨List.forall_mem_append.2 ⟨hw, hsep⟩, ih hmore⟩

theorem forall_mem_rankText (hsigns : ∀ c ∈ ['[', ']'], P c) (n : Nat) : ∀ c ∈ rankText n, P c := by
  induction n with
  | zero => exact fun c hc => nomatch hc
  | succ n ih =>
      exact List.forall_mem_cons.2 ⟨hsigns '[' (by decide),
        List.forall_mem_cons.2 ⟨hsigns ']' (by decide), ih⟩⟩

/-- The characters of a member are those of its parts and of the signs between them. -/
theorem forall_mem_memberText (hsigns : ∀ c ∈ [' ', '(', ')', '[', ']', ','], P c)
    (hint : ∀ c ∈ "int".toList, P c) (hnames : ∀ w, isName w = true → ∀ c ∈ w, P c)
    (hmodifier : ∀ c ∈ modifier, P c) (hresult : ∀ c ∈ result, P c) (hname : ∀ c ∈ name, P c)
    (hblock : ∀ c ∈ block, P c) : ∀ c ∈ memberText modifier result name ps block, P c := by
  have hblank := hsigns ' ' (by decide)
  have hparameter : ∀ w ∈ ps.map Parameter.text, ∀ c ∈ w, P c := by
    intro w hw
    obtain ⟨p, -, rfl⟩ := List.mem_map.1 hw
    have htype : ∀ c ∈ p.type, P c := by
      rcases p.isType with htype | htype
      · rwa [htype]
      · exact hnames _ htype
    have hranks := forall_mem_rankText (fun c hc => hsigns c (by revert c; decide)) p.ranks
    exact List.forall_mem_append.2 ⟨htype, List.forall_mem_append.2 ⟨hranks,
      List.forall_mem_cons.2 ⟨hblank, hnames _ p.name.2⟩⟩⟩
  have hcomma : ∀ c ∈ [',', ' '], P c := fun c hc => hsigns c (by revert c; decide)
  have hlist := forall_mem_intercalate hcomma hparameter
  exact List.forall_mem_append.2 ⟨hmodifier, List.forall_mem_cons.2 ⟨hblank,
    List.forall_mem_append.2 ⟨hresult, List.forall_mem_cons.2 ⟨hblank,
      List.forall_mem_append.2 ⟨hname, List.forall_mem_cons.2 ⟨hsigns '(' (by decide),
        List.forall_mem_append.2 ⟨hlist, List.forall_mem_cons.2 ⟨hsigns ')' (by decide),
          List.forall_mem_cons.2 ⟨hblank, hblock⟩⟩⟩⟩⟩⟩⟩⟩⟩

end Text

/-- A method without a result, as it is written. -/
def methodText {isName : List Char → Bool} (name : List Char) (ps : List (Parameter isName)) :
    List Char :=
  memberText "public".toList "void".toList name ps emptyBlock

/-- The tokens of the method, and what stands behind it. -/
def methodTokens {isName : List Char → Bool} (name : List Char) (ps : List (Parameter isName))
    (trail : List Char) : List (List Char) :=
  memberTokens "public".toList "void".toList name ps (emptyBlock ++ trail)

section Method

variable {language : Language} {lead trail : List Char}

/-- In a method every character is solid, or a blank. -/
theorem padded_method {isName : List Char → Bool} {name : List Char} {ps : List (Parameter isName)}
    (hnames : ∀ w, isName w = true → ∀ c ∈ w, Grammar.IsSolid c) (hname : isName name = true)
    (hlead : ∀ c ∈ lead, c ∈ Text.spaces) (htrail : ∀ c ∈ trail, c ∈ Text.spaces) :
    Padded lead (methodText name ps) trail := by
  refine ⟨hlead, htrail, ⟨'p', _, rfl, by decide⟩, ?_, ?_⟩
  · exact forall_mem_memberText (by decide) (by decide) (fun w hw c hc => (hnames w hw c hc).2)
      (by decide) (by decide) (fun c hc => (hnames name hname c hc).2) (by decide)
  · have hlast : methodText name ps = memberText "public".toList "void".toList name ps [] ++
        emptyBlock := by rw [← memberText_append]; rfl
    rw [hlast, List.getLast?_append_of_ne_nil _ (by decide)]
    decide

theorem spelled_method {isName : List Char → Bool} {isWordChar : Char → Bool}
    (hsigns : ∀ c ∈ " ()[],".toList, isWordChar c = false) (name : List Char)
    (ps : List (Parameter isName)) (hlead : ∀ c ∈ lead, c ∈ Text.spaces) :
    Spelled isWordChar (methodTokens name ps trail) (lead ++ (methodText name ps ++ trail)) := by
  rw [methodText, ← memberText_append]
  exact spelled_member hsigns _ _ name _ ps hlead

/-- Every sign that opens a comment begins with a character that is neither a blank nor in
the text. -/
theorem Padded.uncommented {code : List Char} (h : Padded lead code trail) (language : Language) :
    language.trivia.Uncommented (lead ++ (code ++ trail)) := by
  have hplain : ∀ c ∈ lead ++ (code ++ trail), c ∉ ['/', '#'] := by
    have hsub : ['/', '#'] ⊆ ['/', '#', '\\'] := by decide
    have hspaces : ∀ c ∈ Text.spaces, c ∉ ['/', '#'] := by decide
    exact List.forall_mem_append.2 ⟨fun c hc => hspaces c (h.lead c hc),
      List.forall_mem_append.2 ⟨fun c hc hmem => h.plain c hc (hsub hmem),
        fun c hc => hspaces c (h.trail c hc)⟩⟩
  have hopeners : ∀ o ∈ language.commentOpeners, o.toList.any (· ∈ ['/', '#']) = true := by
    cases language <;> decide
  refine Language.uncommented fun o ho hin => ?_
  obtain ⟨c, hc, hmem⟩ := List.any_eq_true.1 (hopeners o ho)
  exact hplain c (hin.subset hc) (of_decide_eq_true hmem)

theorem Java.readsFirst_method {name : List Char} (hname : isName name = true)
    (ps : List (Parameter isName)) (trail : List Char) :
    grammar.ReadsFirst isWordChar .method .method (methodTokens name ps trail)
      (.ofMember name (ps.map (·.name.1)) emptyBlock) trail := by
  have hothers : (grammar.alternatives .method).takeWhile (· != .methodDeclaration) = [] := by
    decide
  refine ⟨.methodDeclaration, by decide, rfl, rfl, ?_, readsTo_method hname ps trail⟩
  rw [hothers]
  exact List.forall_mem_nil _

/-- A name that reads as one of an operator makes the method an operator, and nothing else
changes. -/
theorem CSharp.readsFirst_method {name : List Char} (hname : isName name = true)
    (ps : List (Parameter isName)) (trail : List Char) :
    grammar.ReadsFirst isWordChar .method .method (methodTokens name ps trail)
      (.ofMember name (ps.map (·.name.1)) emptyBlock) trail := by
  by_cases hoperator : IsOperatorWord name
  · have hothers : (grammar.alternatives .method).takeWhile (· != .operatorDeclaration) = [] := by
      decide
    refine ⟨.operatorDeclaration, by decide, rfl, rfl, ?_, readsTo_operator hoperator ps trail⟩
    rw [hothers]
    exact List.forall_mem_nil _
  · have hothers : (grammar.alternatives .method).takeWhile (· != .methodDeclaration) =
        [.operatorDeclaration, .conversionDeclaration, .destructorDeclaration] := by decide
    refine ⟨.methodDeclaration, by decide, rfl, rfl, ?_, readsTo_method hname ps trail⟩
    rw [hothers]
    exact List.forall_mem_cons.2 ⟨refuses_operator hname hoperator,
      List.forall_mem_cons.2 ⟨refuses_conversion, List.forall_mem_singleton.2 refuses_destructor⟩⟩

/-- In Java and C# a method is parsed under the strict boundary as what is written, whatever its
name, its parameters and the blanks around it. -/
theorem parseSnippet_methods (hlanguage : language ∈ [.java, .csharp]) (name : language.Name)
    (ps : List (Parameter language.isName)) (hlead : ∀ c ∈ lead, c ∈ Text.spaces)
    (htrail : ∀ c ∈ trail, c ∈ Text.spaces) :
    ∃ n, parseSnippet (String.ofList (lead ++ (methodText name.1 ps ++ trail))) ⟨language, .method⟩
        true = .ok n ∧
      n.IsMethod (lead ++ (methodText name.1 ps ++ trail)) (methodText name.1 ps) name.1
        (ps.map (·.name.1)) emptyBlock := by
  cases language with
  | java =>
      have hp : Padded lead (methodText name.1 ps) trail :=
        padded_method (fun _ => Java.solid_of_name) name.2 hlead htrail
      have hsigns : ∀ c ∈ " ()[],".toList, Java.isWordChar c = false := by decide
      exact (Java.readsFirst_method name.2 ps trail).parse_method Java.clean Java.spaced rfl rfl hp
        (spelled_method hsigns name.1 ps hlead) (hp.uncommented .java)
  | csharp =>
      have hp : Padded lead (methodText name.1 ps) trail :=
        padded_method (fun _ => CSharp.solid_of_name) name.2 hlead htrail
      have hsigns : ∀ c ∈ " ()[],".toList, CSharp.isWordChar c = false := by decide
      exact (CSharp.readsFirst_method name.2 ps trail).parse_method CSharp.clean CSharp.spaced rfl
        rfl hp (spelled_method hsigns name.1 ps hlead) (hp.uncommented .csharp)
  | c => exact absurd hlanguage (by decide)

/-- The name reads as one of an operator, and the types and names of the parameters begin like
words of the language. -/
theorem parseSnippet_methods_operator :
    let name : Language.Name .csharp := ⟨"operatortrue".toList, by decide⟩
    let ps : List (Parameter (Language.isName .csharp)) :=
      [⟨"intx".toList, .inr (by decide), 2, ⟨"refs".toList, by decide⟩⟩,
        ⟨"int".toList, .inl rfl, 0, ⟨"record".toList, by decide⟩⟩]
    let code := "public void operatortrue(intx[][] refs, int record) \x7b \x7d".toList
    let text := ['\t'] ++ (code ++ ['\n'])
    .csharp ∈ [Language.java, .csharp] ∧ (∀ c ∈ ['\t'], c ∈ Text.spaces) ∧
      (∀ c ∈ ['\n'], c ∈ Text.spaces) ∧
      ∃ n, parseSnippet (String.ofList text) ⟨.csharp, .method⟩ true = .ok n ∧
        n.IsMethod text code name.1 (ps.map (·.name.1)) emptyBlock := by
  intro name ps code text
  have hlanguage : .csharp ∈ [Language.java, .csharp] := by decide
  have hlead : ∀ c ∈ ['\t'], c ∈ Text.spaces := by decide
  have htrail : ∀ c ∈ ['\n'], c ∈ Text.spaces := by decide
  have hcode : methodText name.1 ps = code := by decide
  have hmethod := parseSnippet_methods hlanguage name ps hlead htrail
  rw [hcode] at hmethod
  exact ⟨hlanguage, hlead, htrail, hmethod⟩

end Method

end FeatureTree
