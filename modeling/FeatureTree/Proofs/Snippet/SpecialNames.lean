import FeatureTree.Proofs.Language.SpecialNames
import FeatureTree.Proofs.Snippet.Alternatives
import FeatureTree.Proofs.Snippet.Shape

/-!
# Special members of C# are named as they are written

The name of a finalizer, an operator or a conversion is the text of its name, and the blanks in
that text are part of the name. So the member has the name that it is spelled with only where it
is written with just these blanks, and where it is written with other blanks it has another name
(`parseSnippet_specialNames`). Operators that differ in nothing but blanks are told apart.
-/

namespace FeatureTree

theorem Text.eq_of_byteLength {a b c d : List Char} (h : a ++ b = c ++ d)
    (hlen : byteLength a = byteLength c) : a = c ∧ b = d := by
  have hcut := cut_append a b
  rw [h, hlen, cut_append] at hcut
  cases hcut
  exact ⟨rfl, rfl⟩

namespace Node

/-- The first child is an identifier that starts at the offset. -/
def IdentifiedAt (p : Node) (offset : Nat) : Prop :=
  ∃ i others, p.children = i :: others ∧ i.kind = .identifier ∧ i.span.start = offset

/-- The node has the name that stands at this place of the text, and so has its identifier, which
starts there. -/
structure NamedAt (p : Node) (text pre name post : List Char) : Prop where
  split : text = pre ++ (name ++ post)
  named : p.name = some (String.ofList name)
  identifier : ∃ i others, p.children = i :: others ∧ i.name = some (String.ofList name)
  identified : p.IdentifiedAt (Text.byteLength pre)

theorem IdentifiedAt.unique {p : Node} {m n : Nat} (h : p.IdentifiedAt m) (h' : p.IdentifiedAt n) :
    m = n := by
  obtain ⟨i, others, hchildren, -, rfl⟩ := h
  obtain ⟨i', others', hchildren', -, rfl⟩ := h'
  cases hchildren.symm.trans hchildren'
  rfl

end Node

theorem SnippetGrammar.madeBy_of_rootAt {R : Type} {g : SnippetGrammar R} (hg : g.Ranked) {r : R}
    {kind : Kind} {text s : List Char} {n : Node} (hr : g.role r = .node kind) (hs : s <:+ text)
    (h : g.rootAt (Text.byteLength text) s r = some n) : g.MadeBy text r n := by
  obtain ⟨⟨rest, f⟩, hmatch, hroot⟩ := Option.bind_eq_some_iff.1 h
  obtain ⟨inner, -, rfl⟩ := (Grammar.matchRule_eq_some_iff hg).1 hmatch
  have hrecords : (Layout.spaced.around (g.layout r)).records = true := by
    cases g.layout r <;> rfl
  rw [Grammar.record, if_pos hrecords] at hmatch hroot
  rw [root?, hr] at hroot
  cases hroot
  exact ⟨kind, s, rest, inner, hr, hs, ⟨.spaced, hmatch⟩, rfl⟩

namespace CSharp

open Grammar SnippetGrammar

variable {k : Special} {text pre gap gap' target post : List Char} {p : Node}

/-- The node is such a member that stands somewhere in the text. -/
abbrev Special.Makes (k : Special) (text : List Char) (p : Node) : Prop :=
  grammar.MadeBy text k.declaration p

/-- A special member has a name that is written in the text. -/
theorem Special.Makes.namedAt (h : k.Makes text p) (hshape : p.HasShape .csharp) :
    ∃ pre gap target post, k.Allows gap ∧ k.IsTarget target post ∧
      p.NamedAt text pre (k.spell gap target) post := by
  obtain ⟨kind, before, after, inner, hrole, hbefore, hmatched, rfl⟩ := h
  obtain rfl : kind = .method := by cases k <;> cases hrole <;> rfl
  obtain ⟨gap, target, post, more, hgap, htarget, hsuffix, hnamed⟩ := named_declaration hmatched
  obtain ⟨pre, hpre⟩ := hsuffix.trans hbefore
  have hname : (grammar.nodeOf (Text.byteLength text) .method before after inner).name =
      some (String.ofList (k.spell gap target)) := by
    rw [name_nodeOf rfl, names_eq_named, hnamed, List.map_cons, Forest.taken_append]
    rfl
  have hkinds : ∀ r, grammar.role r ≠ .node .identifier := by rintro r; cases r <;> nofun
  have hidentifiers :
      (grammar.nodeOf (Text.byteLength text) .method before after inner).children.filter
          (·.kind == .identifier) =
        [grammar.identifierOf (Text.byteLength text)
          (k.nameRule, k.spell gap target ++ post, post)] := by
    refine (identifiers_contribute hkinds rfl).trans ?_
    rw [hnamed]
    rfl
  rw [Node.HasShape] at hshape
  obtain ⟨ps, ⟨i, hchildren, hi, hiname, -⟩, hps⟩ := hshape
  have hfilter : (i :: ps).filter (·.kind == .identifier) = [i] := by
    rw [List.filter_cons_of_pos (by rw [hi]; rfl), List.filter_eq_nil_iff.2 fun q hq => ?_]
    rw [hps q hq]
    decide
  rw [← hchildren, hidentifiers] at hfilter
  obtain rfl := List.singleton_inj.1 hfilter
  refine ⟨pre, gap, target, post, hgap, htarget, hpre.symm, hname, ⟨_, ps, hchildren, ?_⟩,
    ⟨_, ps, hchildren, hi, ?_⟩⟩
  · rw [hiname, hname]
  · rw [← hpre]
    exact Text.offset_append pre _

/-- At the same place of a text, a special member has the same name. -/
theorem Special.Makes.namedAt_of_identified (h : k.Makes text p) (hshape : p.HasShape .csharp)
    (htext : text = pre ++ (k.spell gap target ++ post)) (hgap : k.Allows gap)
    (htarget : k.IsTarget target post) (hplace : p.IdentifiedAt (Text.byteLength pre)) :
    p.NamedAt text pre (k.spell gap target) post := by
  obtain ⟨pre', gap', target', post', hgap', htarget', hnamed⟩ := h.namedAt hshape
  have hsplit := hnamed.split.symm.trans htext
  obtain ⟨rfl, hrest⟩ := Text.eq_of_byteLength hsplit (hnamed.identified.unique hplace)
  obtain ⟨rfl, rfl, rfl⟩ := htarget'.unique htarget hgap' hgap hrest
  exact hnamed

/-- A finalizer, an operator or a conversion that is parsed, at any depth, is named by the text of
its name with the blanks in it, and so is its identifier. It has the name that it is spelled with if
and only if these blanks are the ones of the spelling. With any other blanks there, the name is
read up to the same place; and whatever is then parsed, such a member at the same place has
the name with these blanks, which is the same if and only if the blanks are. -/
theorem parseSnippet_specialNames {snippet : String} {production : Production} {strict : Bool}
    {n : Node} (h : parseSnippet snippet ⟨.csharp, production⟩ strict = .ok n)
    (hp : p ∈ n.preorder) (hk : k.Makes snippet.toList p) :
    ∃ pre gap target post, k.Allows gap ∧
      p.NamedAt snippet.toList pre (k.spell gap target) post ∧
      (p.name = some (String.ofList (k.spell k.spacing target)) ↔ gap = k.spacing) ∧
      ∀ gap', k.Allows gap' →
        grammar.leaves (.rule k.nameRule) (k.spell gap' target ++ post) = some post ∧
        ∀ (snippet' : String) production' strict' n' p',
          snippet'.toList = pre ++ (k.spell gap' target ++ post) →
          parseSnippet snippet' ⟨.csharp, production'⟩ strict' = .ok n' →
          p' ∈ n'.preorder → k.Makes snippet'.toList p' →
          p'.IdentifiedAt (Text.byteLength pre) →
            p'.NamedAt snippet'.toList pre (k.spell gap' target) post ∧
              (p'.name = p.name ↔ gap' = gap) := by
  obtain ⟨pre, gap, target, post, hgap, htarget, hnamed⟩ :=
    hk.namedAt (parseSnippet_allShaped h p hp)
  have hnames : ∀ gap', some (String.ofList (k.spell gap' target)) =
      some (String.ofList (k.spell gap target)) ↔ gap' = gap := fun gap' => by
    rw [Option.some_inj, String.ofList_inj, Special.spell_inj]
  refine ⟨pre, gap, target, post, hgap, hnamed, ?_, fun gap' hgap' =>
    ⟨htarget.leaves hgap', fun snippet' production' strict' n' p' htext h' hp' hk' hplace => ?_⟩⟩
  · rw [hnamed.named, eq_comm, hnames, eq_comm]
  · have hnamed' := hk'.namedAt_of_identified (parseSnippet_allShaped h' p' hp') htext hgap'
      htarget hplace
    refine ⟨hnamed', ?_⟩
    rw [hnamed'.named, hnamed.named, hnames]

/-- A line break in the name of an operator. -/
theorem parseSnippet_specialNames_operator :
    let text := "bool operator\n==(A a, B b);"
    let n : Node := ⟨.method, some "operator\n==",
      [.leaf .identifier (some "operator\n==") ⟨5, 16⟩, .leaf .parameter (some "a") ⟨17, 20⟩,
        .leaf .parameter (some "b") ⟨22, 25⟩], ⟨0, 27⟩, none⟩
    parseSnippet text ⟨.csharp, .method⟩ true = .ok n ∧ n ∈ n.preorder ∧
      Special.operator.Makes text.toList n ∧
      ∃ pre gap target post, Special.operator.Allows gap ∧
        n.NamedAt text.toList pre (Special.operator.spell gap target) post ∧ gap ≠ [' '] ∧
        n.name ≠ some (String.ofList (Special.operator.spell [' '] target)) := by
  intro text n
  have h : parseSnippet text ⟨.csharp, .method⟩ true = .ok n :=
    Outcome.eq_ok_of_toOption (by decide +kernel)
  have hp : n ∈ n.preorder := List.mem_cons_self
  have hk : Special.operator.Makes text.toList n :=
    madeBy_of_rootAt ranked rfl (List.suffix_refl _) (by decide +kernel)
  obtain ⟨pre, gap, target, post, hgap, hnamed, hspelled, -⟩ := parseSnippet_specialNames h hp hk
  have hbroken : gap ≠ [' '] := by
    rintro rfl
    have hname : Special.operator.spell [' '] target = "operator\n==".toList :=
      String.ofList_inj.1 (Option.some_inj.1 hnamed.named.symm)
    have hblank : some ' ' = some '\n' := congrArg (·[8]?) hname
    cases hblank
  exact ⟨h, hp, hk, pre, gap, target, post, hgap, hnamed, hbroken, mt hspelled.1 hbroken⟩

/-- The name of such a member does not depend on the blanks in it. -/
def Special.NamedAlike (k : Special) : Prop :=
  ∀ (pre gap gap' target post : List Char) (text text' : String) (production : Production)
    (strict : Bool) (n n' : Node),
    k.Allows gap → k.Allows gap' → k.IsTarget target post →
    text.toList = pre ++ (k.spell gap target ++ post) →
    text'.toList = pre ++ (k.spell gap' target ++ post) →
    parseSnippet text ⟨.csharp, production⟩ strict = .ok n →
    parseSnippet text' ⟨.csharp, production⟩ strict = .ok n' →
    k.Makes text.toList n → k.Makes text'.toList n' → n'.name = n.name

/-- A blank behind the sign gives a finalizer another name. -/
theorem not_namedAlike_finalizer : ¬ Special.finalizer.NamedAlike := by
  intro h
  let text := "~Foo() \x7b \x7d"
  let text' := "~ Foo() \x7b \x7d"
  let n : Node := ⟨.method, some "~Foo", [.leaf .identifier (some "~Foo") ⟨0, 4⟩], ⟨0, 10⟩,
    some ⟨7, 10⟩⟩
  let n' : Node := ⟨.method, some "~ Foo", [.leaf .identifier (some "~ Foo") ⟨0, 5⟩], ⟨0, 11⟩,
    some ⟨8, 11⟩⟩
  have hparse : parseSnippet text ⟨.csharp, .method⟩ true = .ok n :=
    Outcome.eq_ok_of_toOption (by decide +kernel)
  have hparse' : parseSnippet text' ⟨.csharp, .method⟩ true = .ok n' :=
    Outcome.eq_ok_of_toOption (by decide +kernel)
  have hmakes : Special.finalizer.Makes text.toList n :=
    madeBy_of_rootAt ranked rfl (List.suffix_refl _) (by decide +kernel)
  have hmakes' : Special.finalizer.Makes text'.toList n' :=
    madeBy_of_rootAt ranked rfl (List.suffix_refl _) (by decide +kernel)
  have htarget : Special.finalizer.IsTarget "Foo".toList "() \x7b \x7d".toList := by
    unfold Special.IsTarget
    decide +kernel
  have hname := h [] [] [' '] _ _ text text' .method true n n' (by decide) (by decide) htarget
    (by decide) (by decide) hparse hparse' hmakes hmakes'
  exact absurd hname (by decide)

end CSharp

end FeatureTree
