import FeatureTree.Proofs.Language.CDeclarators
import FeatureTree.Proofs.Snippet.Comments
import FeatureTree.Proofs.Snippet.Shape

/-!
# Variables of a declaration as they are written

A declaration of integers declares the names that are written in it, each with the text behind
its equals sign. The rule takes the whole text, so nothing is left for the strict boundary to
look at (`ReadsAlone.parse_whole`), and the children of the root are its variables, since a node
of its kind has no others.
-/

namespace FeatureTree

open scoped Tokens

namespace Node

variable {n : Node} {language : Language}

/-- What a child is: its kind, its name, and the text of its body. -/
def content (text : List Char) (n : Node) : Kind × Option String × Option (Option (List Char)) :=
  (n.kind, n.name, n.body.map (·.slice? text))

/-- The node has the variables for its children, each with its name and its initializer, and is
named after the first of them. -/
def ListsVariables (n : Node) (text : List Char)
    (vs : List (List Char × Option (List Char))) : Prop :=
  n.children.map (content text) =
      vs.map (fun v => (.variable, some (String.ofList v.1), v.2.map some)) ∧
    n.name = vs.head?.map fun v => String.ofList v.1

theorem listsVariables {α : Type} {name : α → List Char} {d : Declarator α}
    {ds : List (Declarator α)} {text : List Char}
    (hchildren : n.children.map (content text) =
      ((d :: ds).map fun x => (some (name x.declared), x.value.map (·.1))).map
        fun v => (.variable, v.1.map String.ofList, v.2.map some))
    (hname : n.name = some (String.ofList (name d.declared))) :
    n.ListsVariables text ((d :: ds).map fun x => (name x.declared, x.value.map (·.1))) :=
  ⟨by rw [hchildren, List.map_map, List.map_map]; rfl, hname⟩

/-- The children of a declaration are variables, and the first one names it. -/
theorem HasShape.lists (h : n.HasShape language) (hkind : n.kind ∈ [.field, .declaration]) :
    (∀ c ∈ n.children, c.kind = .variable) ∧ ∀ v vs, n.children = v :: vs → n.name = v.name := by
  simp only [List.mem_cons, List.not_mem_nil, or_false] at hkind
  rcases hkind with hkind | hkind
  · rw [HasShape, hkind] at h
    obtain ⟨v, vs, hchildren, hall, hname, -⟩ := h
    refine ⟨hall, fun w ws heq => ?_⟩
    obtain ⟨rfl, -⟩ := List.cons.inj (hchildren.symm.trans heq)
    exact hname
  · rw [HasShape, hkind] at h
    exact ⟨h.1, h.2.1⟩

end Node

namespace SnippetGrammar

open Grammar

variable {R : Type} {g : SnippetGrammar R} {production : Production} {entry r : R}
  {kind : Kind} {language : Language} {text before after : List Char} {inner f : Forest R} {n : Node}

/-- The kinds, names and initializers of the variables of a node. -/
theorem contents_nodeOf (hinner : inner.Within before after) (hbefore : before <:+ text) :
    ((g.nodeOf (Text.byteLength text) kind before after inner).childrenOfKind .variable).map
        (Node.content text) =
      (g.views inner).map fun v => (.variable, v.1.map String.ofList, v.2.map some) := by
  show List.map _ (List.filter _ (g.contribute _ _ _ _).children) = _
  rw [contribute_variables, views, List.map_append, List.map_map, List.map_map]
  refine List.map_congr_left fun m hm => ?_
  obtain ⟨hfirst, hsecond⟩ := within_declared hinner hm
  have hsuffix := hfirst.trans hbefore
  have hname := congrArg Prod.fst (view_nodeOf (g := g) hsecond hsuffix)
  have hbody : (g.nodeOf (Text.byteLength text) .variable m.1 m.2.1 m.2.2).body =
      (g.bodies m.2.2).head?.map fun b => g.spanOf (Text.byteLength text) b.1 b.2 := contribute_body
  refine Prod.ext rfl (Prod.ext hname ?_)
  show Option.map _ (g.nodeOf (Text.byteLength text) .variable m.1 m.2.1 m.2.2).body =
    ((g.bodies m.2.2).head?.map g.textOf).map some
  rw [hbody]
  cases hbodies : g.bodies m.2.2 with
  | nil => rfl
  | cons b bs =>
      obtain ⟨hb, hb'⟩ := within_bodies hsecond (m := b) (by rw [hbodies]; simp)
      exact congrArg some (slice?_spanOf (hb.trans hsuffix) hb')

variable [BEq R]

/-- If the rule takes the whole text, the strict boundary accepts it. -/
theorem ReadsAlone.parse_whole (hr : g.ReadsAlone production entry r kind) (hg : g.Ranked)
    (hengine : Engine.bundled language = .ofGrammar language g)
    (hsupported : Target.isSupported ⟨language, production⟩ = true)
    (hkind : production.accepts kind = true) {k : Nat} (hentry : g.rootWithin k entry = true)
    (hmatch : g.matchExpr (g.body r) .spaced (g.between .spaced text) = some ([], inner)) :
    parseSnippet (String.ofList text) ⟨language, production⟩ true =
      .ok (g.nodeOf (Text.byteLength text) kind (g.between .spaced text) [] inner) := by
  have hskip : g.trivia.skip text = g.between .spaced text := rfl
  obtain ⟨n, hn⟩ : ∃ n, n = g.nodeOf (Text.byteLength text) kind (g.between .spaced text) [] inner :=
    ⟨_, rfl⟩
  have hlenient : g.read language text production .lenient = .ok n :=
    (hr.read_eq_ok_iff hg).2 ⟨[], inner, hmatch, hn⟩
  obtain ⟨entry', rest, f, hentry', hparse, hroot, -⟩ := SnippetGrammar.read_eq_ok_iff.1 hlenient
  cases hr.production_entry.symm.trans hentry'
  have hrest : rest = [] := by
    rw [hr.parse hg, hskip, hmatch] at hparse
    exact (congrArg Prod.fst (Option.some.inj hparse)).symm
  subst hrest
  obtain ⟨front, hfront, hstop, htail⟩ := stop_of_parse hg hentry hparse hroot
  rw [List.append_nil] at hfront
  have hstrict : g.read language text production .strict = .ok n :=
    SnippetGrammar.read_eq_ok_iff.2 ⟨entry, [], f, hentry', hparse, hroot, fun _ => by
      rw [hfront]
      exact (checkTrailing_eq_ok_iff hstop).2 htail⟩
  rw [← hn]
  refine parseSnippet_eq_ok_iff.2 ⟨hsupported, ?_, ?_⟩
  · rw [hengine]
    show g.read language (String.ofList text).toList production .strict = _
    rwa [String.toList_ofList]
  · rw [hn]
    exact hkind

/-- If the rule does not match, nothing is read. -/
theorem ReadsAlone.parse_ne_ok (hr : g.ReadsAlone production entry r kind) (hg : g.Ranked)
    (hengine : Engine.bundled language = .ofGrammar language g)
    (hmatch : g.matchExpr (g.body r) .spaced (g.between .spaced text) = none) (strict : Bool)
    (n : Node) : parseSnippet (String.ofList text) ⟨language, production⟩ strict ≠ .ok n := by
  intro hparse
  have hlenient : parseSnippet (String.ofList text) ⟨language, production⟩ false = .ok n := by
    cases strict with
    | true => exact (parseSnippet_strict_iff.1 hparse).1
    | false => exact hparse
  obtain ⟨-, hread, -⟩ := parseSnippet_eq_ok_iff.1 hlenient
  rw [hengine] at hread
  have hread' : g.read language text production .lenient = .ok n := by
    rw [← String.toList_ofList (l := text)]
    exact hread
  obtain ⟨t, inner, hsome, -⟩ := (hr.read_eq_ok_iff hg).1 hread'
  rw [show g.trivia.skip text = g.between .spaced text from rfl, hmatch] at hsome
  cases hsome

/-- The children of the root are then the variables that the rule recorded. -/
theorem ReadsAlone.parse_contents (hr : g.ReadsAlone production entry r kind) (hg : g.Ranked)
    (hengine : Engine.bundled language = .ofGrammar language g)
    (hsupported : Target.isSupported ⟨language, production⟩ = true)
    (hkind : production.accepts kind = true) {k : Nat} (hentry : g.rootWithin k entry = true)
    (hdeclares : kind ∈ [.field, .declaration])
    (hmatch : g.matchExpr (g.body r) .spaced (g.between .spaced text) = some ([], inner))
    {view : Option (List Char) × Option (List Char)}
    {views : List (Option (List Char) × Option (List Char))}
    (hviews : g.views inner = view :: views) :
    ∃ n, parseSnippet (String.ofList text) ⟨language, production⟩ true = .ok n ∧
      n.children.map (Node.content text) =
        (view :: views).map (fun v => (.variable, v.1.map String.ofList, v.2.map some)) ∧
      n.name = view.1.map String.ofList := by
  have hparse := hr.parse_whole hg hengine hsupported hkind hentry hmatch
  have hrule : g.matchRule r .spaced (g.between .spaced text) =
      some ([], .cons r (g.between .spaced text) [] inner .nil) :=
    matchRule_of_body hg (by rw [hr.layout]; exact hmatch) (by rw [hr.layout]; rfl)
  obtain ⟨n, hn⟩ : ∃ n, n = g.nodeOf (Text.byteLength text) kind (g.between .spaced text) [] inner :=
    ⟨_, rfl⟩
  rw [← hn] at hparse
  obtain ⟨hvariables, hfirst⟩ :=
    (Node.allShaped_iff.1 (parseSnippet_allShaped hparse)).1.lists (by rw [hn]; exact hdeclares)
  have hcontents : (n.childrenOfKind .variable).map (Node.content text) =
      (g.views inner).map fun v => (.variable, v.1.map String.ofList, v.2.map some) := by
    rw [hn]
    exact contents_nodeOf (run_within hg hrule).2.1 (Trivia.skip_suffix hg.lawful text)
  rw [Node.childrenOfKind, List.filter_eq_self.2 fun c hc => by simp [hvariables c hc],
    hviews] at hcontents
  refine ⟨n, hparse, hcontents, ?_⟩
  obtain ⟨v, vs, hchildren, hv, -⟩ := List.map_eq_cons_iff.1 hcontents
  exact (hfirst v vs hchildren).trans (congrArg (·.2.1) hv)

end SnippetGrammar

/-! ## Languages -/

namespace Language

/-- The text is a name that may be declared. -/
def isName : Language → List Char → Bool
  | .java => Java.isName
  | .csharp => CSharp.isName
  | .c => C.isName

/-- A name that may be declared. -/
abbrev Name (language : Language) := { w : List Char // language.isName w = true }

end Language

/-- The tokens of a declaration of integers, with a semicolon at its end. -/
def Declarator.declarationTokens {α : Type} (spell : α → List (List Char)) (d : Declarator α)
    (ds : List (Declarator α)) : List (List Char) :=
  "int".toList :: (d.tokens spell ++ moreTokens spell ds)

section Languages

open SnippetGrammar

variable {text : List Char} {view : Option (List Char) × Option (List Char)}
  {views : List (Option (List Char) × Option (List Char))}

theorem Java.readsField : grammar.ReadsAlone .field .fieldEntry .fieldDeclaration .field :=
  ⟨rfl, rfl, ⟨rfl, rfl⟩, rfl, rfl⟩

theorem CSharp.readsField : grammar.ReadsAlone .field .fieldEntry .fieldDeclaration .field :=
  ⟨rfl, rfl, ⟨rfl, rfl⟩, rfl, rfl⟩

theorem Java.parse_field {f : Forest Rule}
    (hmatch : grammar.matchExpr (grammar.body .fieldDeclaration) .spaced
      (grammar.between .spaced text) = some ([], f)) (hviews : grammar.views f = view :: views) :
    ∃ n, parseSnippet (String.ofList text) ⟨.java, .field⟩ true = .ok n ∧
      n.children.map (Node.content text) =
        (view :: views).map (fun v => (.variable, v.1.map String.ofList, v.2.map some)) ∧
      n.name = view.1.map String.ofList :=
  readsField.parse_contents ranked rfl rfl rfl (rootWithin_entry readsField.production_entry)
    (by decide) hmatch hviews

theorem CSharp.parse_field {f : Forest Rule}
    (hmatch : grammar.matchExpr (grammar.body .fieldDeclaration) .spaced
      (grammar.between .spaced text) = some ([], f)) (hviews : grammar.views f = view :: views) :
    ∃ n, parseSnippet (String.ofList text) ⟨.csharp, .field⟩ true = .ok n ∧
      n.children.map (Node.content text) =
        (view :: views).map (fun v => (.variable, v.1.map String.ofList, v.2.map some)) ∧
      n.name = view.1.map String.ofList :=
  readsField.parse_contents ranked rfl rfl rfl (rootWithin_entry readsField.production_entry)
    (by decide) hmatch hviews

theorem C.parse_declaration {f : Forest Rule}
    (hmatch : grammar.matchExpr (grammar.body .declaration) .spaced
      (grammar.between .spaced text) = some ([], f)) (hviews : grammar.views f = view :: views) :
    ∃ n, parseSnippet (String.ofList text) ⟨.c, .declaration⟩ true = .ok n ∧
      n.children.map (Node.content text) =
        (view :: views).map (fun v => (.variable, v.1.map String.ofList, v.2.map some)) ∧
      n.name = view.1.map String.ofList :=
  have hr : grammar.ReadsAlone .declaration .declarationEntry .declaration .declaration :=
    ⟨rfl, rfl, ⟨rfl, rfl⟩, rfl, rfl⟩
  hr.parse_contents ranked rfl rfl rfl (C.rootWithin_entry hr.production_entry) (by decide) hmatch
    hviews

/-- A declaration of integers declares the names that are written in it, each with the initializer
behind it, and is named after the first. -/
theorem parseSnippet_declarators (language : Language) (d : Declarator language.Name)
    (ds : List (Declarator language.Name)) {text : List Char}
    (hs : Spelled language.isWordChar (Declarator.declarationTokens (fun w => [w.1]) d ds) text) :
    ∃ n, parseSnippet (String.ofList text) language.declaring true = .ok n ∧
      n.ListsVariables text ((d :: ds).map fun x => (x.declared.1, x.value.map (·.1))) := by
  cases language with
  | java =>
      obtain ⟨f, hmatch, -, hexact⟩ :=
        Java.match_field (Java.takes_int (Java.endsType_of_name d.declared.2)) hs
      obtain ⟨n, hparse, hchildren, hname⟩ := Java.parse_field hmatch (hexact fun _ _ => rfl)
      exact ⟨n, hparse, Node.listsVariables hchildren hname⟩
  | csharp =>
      obtain ⟨f, hmatch, -, hexact⟩ :=
        CSharp.match_field (CSharp.takes_int (CSharp.endsType_of_name d.declared.2)) hs
      obtain ⟨n, hparse, hchildren, hname⟩ := CSharp.parse_field hmatch (hexact fun _ _ => rfl)
      exact ⟨n, hparse, Node.listsVariables hchildren hname⟩
  | c =>
      obtain ⟨f, hmatch, -, hexact⟩ := C.match_declaration C.spelling_name
        ⟨d.declared.1, _, rfl, .inr (.inr d.declared.2)⟩ hs
      obtain ⟨n, hparse, hchildren, hname⟩ := C.parse_declaration hmatch (hexact fun _ _ => rfl)
      exact ⟨n, hparse, Node.listsVariables hchildren hname⟩

/-- A comma in a call is none between declarators. -/
theorem parseSnippet_declarators_call :
    let text := "int a = f(1, 2) ,b;".toList
    Spelled C.isWordChar ["int".toList, ['a'], ['='], "f(1, 2)".toList, [','], ['b'], [';']] text ∧
      ∃ n, parseSnippet (String.ofList text) ⟨.c, .declaration⟩ true = .ok n ∧
        n.ListsVariables text [(['a'], some "f(1, 2)".toList), (['b'], none)] := by
  intro text
  have hbalanced : Balanced false ('f' :: '(' :: ("1, 2".toList ++ ')' :: [])) :=
    .char (by decide) (.inr (by decide)) (.group .paren (.of_plain (by decide)) .nil)
  have hvalue : IsValue "f(1, 2)".toList :=
    ⟨hbalanced, by decide, by decide, by decide, by decide⟩
  have hs : Spelled C.isWordChar
      ["int".toList, ['a'], ['='], "f(1, 2)".toList, [','], ['b'], [';']]
      ([] ++ ("int".toList ++ ([' '] ++ (['a'] ++ ([' '] ++ (['='] ++ ([' '] ++
        ("f(1, 2)".toList ++ ([' '] ++ ([','] ++ ([] ++ (['b'] ++ ([] ++ ([';'] ++ [])))))))))))))) :=
    .cons (by decide) (by decide) (.cons (by decide) (by decide) (.cons (by decide) (by decide)
      (.cons (by decide) (by decide) (.cons (by decide) (by decide) (.cons (by decide) (by decide)
        (.cons (by decide) (by decide) .nil))))))
  let d : Declarator (Language.Name .c) := ⟨⟨['a'], by decide⟩, some ⟨_, hvalue⟩⟩
  let d' : Declarator (Language.Name .c) := ⟨⟨['b'], by decide⟩, none⟩
  exact ⟨hs, parseSnippet_declarators .c d [d'] hs⟩

/-! ## Declarators of C that the boundary does not see -/

/-- The variables of a declaration are the declarators that are read as such. -/
theorem C.parse_visible (d : Declarator C.Declared) (ds : List (Declarator C.Declared))
    (hs : Spelled C.isWordChar (Declarator.declarationTokens C.Declared.tokens d ds) text) :
    ∃ n, parseSnippet (String.ofList text) ⟨.c, .declaration⟩ true = .ok n ∧
      n.children.map (fun v => (v.kind, v.name)) =
        (Declarator.visible C.Declared.isSeen false (d :: ds)).map
          fun x => (.variable, some (String.ofList x.declared.name)) := by
  have hopens : C.OpensList (d.tokens C.Declared.tokens ++
      Declarator.moreTokens C.Declared.tokens ds) := by
    rw [Declarator.tokens, C.Declared.tokens, List.append_assoc, List.append_assoc]
    exact C.opensList_form d.declared.form
  obtain ⟨f, hmatch, hnames, -⟩ := C.match_declaration C.spelling hopens hs
  cases hviews : C.grammar.views f with
  | nil =>
      rw [hviews] at hnames
      cases hnames
  | cons view views =>
      obtain ⟨n, hparse, hchildren, -⟩ := C.parse_declaration hmatch hviews
      refine ⟨n, hparse, ?_⟩
      have hcontents := congrArg (List.map fun x => (x.1, x.2.1)) hchildren
      rw [← hviews, List.map_map, List.map_map] at hcontents
      refine hcontents.trans ?_
      have hvisible := congrArg (List.map fun w => (Kind.variable, w.map String.ofList)) hnames
      rwa [List.map_map, List.map_map] at hvisible

/-- Whenever the text is accepted, its declaration has one variable for each name, in order. -/
def C.DeclaresEach (names : List (List Char)) (text : List Char) : Prop :=
  ∀ strict n, parseSnippet (String.ofList text) ⟨.c, .declaration⟩ strict = .ok n →
    n.children.map (fun v => (v.kind, v.name)) =
      names.map fun w => (.variable, some (String.ofList w))

/-- There is one variable for each declarator if and only if the boundary sees all those that stand
right behind an initializer. -/
theorem C.declaresEach_iff (d : Declarator C.Declared) (ds : List (Declarator C.Declared))
    (hs : Spelled C.isWordChar (Declarator.declarationTokens C.Declared.tokens d ds) text) :
    C.DeclaresEach ((d :: ds).map (·.declared.name)) text ↔
      (d :: ds).IsChain fun x y => x.value.isSome = true → y.declared.isSeen = true := by
  obtain ⟨n, hparse, hchildren⟩ := C.parse_visible d ds hs
  have hchain : Declarator.visible C.Declared.isSeen false (d :: ds) = d :: ds ↔ _ :=
    Declarator.visible_eq_self_iff
  constructor
  · intro h
    have hall := hchildren.symm.trans (h true n hparse)
    have hlen := congrArg List.length hall
    rw [List.length_map, List.length_map, List.length_map] at hlen
    have hvisible := (Declarator.visible_sublist C.Declared.isSeen false (d :: ds)).eq_of_length hlen
    exact (hchain.1 hvisible).2
  · intro h strict n' hparse'
    have hsame : n' = n := by
      cases strict with
      | true =>
          rw [hparse] at hparse'
          exact (Except.ok.inj hparse').symm
      | false =>
          rw [(parseSnippet_strict_iff.1 hparse).1] at hparse'
          exact (Except.ok.inj hparse').symm
    rw [hsame, hchildren, hchain.2 ⟨nofun, h⟩, List.map_map]
    rfl

/-- Stars and arrays are seen. -/
theorem C.declaresEach_pointer :
    let text := "int a = 1, *b[2];".toList
    Spelled C.isWordChar
        ["int".toList, ['a'], ['='], ['1'], [','], ['*'], ['b'], "[2]".toList, [';']] text ∧
      C.DeclaresEach [['a'], ['b']] text := by
  intro text
  have hone : IsValue ['1'] :=
    ⟨.of_plain (by decide), by decide, by decide, by decide, by decide⟩
  have htwo : C.grammar.IsGroup C.group .square "[2]".toList :=
    C.readsValues.isGroup_of_balanced .square (v := ['2']) (.of_plain (by decide)) (by
      intro c hc
      revert c
      decide)
  have hs : Spelled C.isWordChar
      ["int".toList, ['a'], ['='], ['1'], [','], ['*'], ['b'], "[2]".toList, [';']]
      ([] ++ ("int".toList ++ ([' '] ++ (['a'] ++ ([' '] ++ (['='] ++ ([' '] ++ (['1'] ++
        ([] ++ ([','] ++ ([' '] ++ (['*'] ++ ([] ++ (['b'] ++ ([] ++ ("[2]".toList ++
          ([] ++ ([';'] ++ [])))))))))))))))))) :=
    .cons (by decide) (by decide) (.cons (by decide) (by decide) (.cons (by decide) (by decide)
      (.cons (by decide) (by decide) (.cons (by decide) (by decide) (.cons (by decide) (by decide)
        (.cons (by decide) (by decide) (.cons (by decide) (by decide) (.cons (by decide) (by decide)
          .nil))))))))
  let d : Declarator C.Declared := ⟨⟨.named [] ⟨['a'], by decide⟩ [], []⟩, some ⟨_, hone⟩⟩
  let d' : Declarator C.Declared :=
    ⟨⟨.named [[]] ⟨['b'], by decide⟩ [.array ⟨_, htwo⟩], []⟩, none⟩
  exact ⟨hs, (C.declaresEach_iff d [d'] hs).2 (.cons_cons (fun _ => rfl) (.singleton d'))⟩

/-- A qualifier behind the star hides the declarator in the initializer in front of it. -/
theorem C.not_declaresEach_qualifier :
    ¬ ∀ (d : Declarator C.Declared) (ds : List (Declarator C.Declared)) (text : List Char),
      Spelled C.isWordChar (Declarator.declarationTokens C.Declared.tokens d ds) text →
        C.DeclaresEach ((d :: ds).map (·.declared.name)) text := by
  intro h
  have hone : IsValue ['1'] :=
    ⟨.of_plain (by decide), by decide, by decide, by decide, by decide⟩
  have htwo : IsValue ['2'] :=
    ⟨.of_plain (by decide), by decide, by decide, by decide, by decide⟩
  have hs : Spelled C.isWordChar ["int".toList, ['a'], ['='], ['1'], [','], ['*'], "const".toList,
      ['b'], ['='], ['2'], [';']]
      ([] ++ ("int".toList ++ ([' '] ++ (['a'] ++ ([' '] ++ (['='] ++ ([' '] ++ (['1'] ++
        ([] ++ ([','] ++ ([' '] ++ (['*'] ++ ([] ++ ("const".toList ++ ([' '] ++ (['b'] ++
          ([' '] ++ (['='] ++ ([' '] ++ (['2'] ++ ([] ++ ([';'] ++ [])))))))))))))))))))))) :=
    .cons (by decide) (by decide) (.cons (by decide) (by decide) (.cons (by decide) (by decide)
      (.cons (by decide) (by decide) (.cons (by decide) (by decide) (.cons (by decide) (by decide)
        (.cons (by decide) (by decide) (.cons (by decide) (by decide) (.cons (by decide) (by decide)
          (.cons (by decide) (by decide) (.cons (by decide) (by decide) .nil))))))))))
  let d : Declarator C.Declared := ⟨⟨.named [] ⟨['a'], by decide⟩ [], []⟩, some ⟨_, hone⟩⟩
  let d' : Declarator C.Declared :=
    ⟨⟨.named [[.qualifier ⟨"const", by decide⟩]] ⟨['b'], by decide⟩ [], []⟩, some ⟨_, htwo⟩⟩
  have hparse : parseSnippet "int a = 1, *const b = 2;" ⟨.c, .declaration⟩ true =
      .ok ⟨.declaration, some "a", [⟨.variable, some "a", [], ⟨4, 23⟩, some ⟨8, 23⟩⟩], ⟨0, 24⟩,
        none⟩ :=
    Outcome.eq_ok_of_toOption (by decide +kernel)
  cases congrArg List.length (h d [d'] _ hs true _ hparse)

end Languages

end FeatureTree
