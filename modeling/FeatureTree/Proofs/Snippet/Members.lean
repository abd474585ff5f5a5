import FeatureTree.Proofs.Language.Members

/-!
# Members read as what they are

A snippet may be read as a member of unknown form, or as the production that its root
belongs to. Both try rules in a fixed order and neither goes back, so that they agree is
a matter of which rules come first: a rule that only one of them tries earlier must not
match where the other's does (`Agrees`). The rules of the languages are told apart so,
except that in Java a method may look like a record, and in C a declaration like a
function.
-/

namespace FeatureTree

/-- The production of roots of this kind alone. Initializer blocks have none. -/
def Kind.production? : Kind → Option Production
  | .class | .interface | .struct | .enum => some .type
  | .method => some .method
  | .constructor => some .constructor
  | .field => some .field
  | .property => some .property
  | .function => some .function
  | .declaration => some .declaration
  | .initializer | .variable | .parameter | .identifier => none

section Transfer

variable {R : Type} [DecidableEq R] {g : SnippetGrammar R} {language : Language}
  {apart : R → R → Prop} {failing : List R} {production other : Production} {text : String}
  {strict : Bool} {n : Node}

theorem parseSnippet_of_agrees (hg : g.Regular)
    (hengine : Engine.bundled language = .ofGrammar language g)
    (hapart : ∀ r r', apart r r' → g.Excludes r r')
    (hfailing : ∀ r ∈ failing, g.matchRule r .spaced (g.trivia.skip text.toList) = none)
    (hsupports : language.supports other = true) (haccepts : other.accepts n.kind = true)
    (hagrees : g.Agrees apart failing production other n.kind)
    (h : parseSnippet text ⟨language, production⟩ strict = .ok n) :
    parseSnippet text ⟨language, other⟩ strict = .ok n := by
  obtain ⟨-, hparse, -⟩ := parseSnippet_eq_ok_iff.1 h
  rw [hengine] at hparse
  refine parseSnippet_eq_ok_iff.2 ⟨hsupports, ?_, haccepts⟩
  rw [hengine]
  exact SnippetGrammar.read_of_agrees hg hapart hfailing hagrees hparse

/-- Each kind of member is read alike as a production of its own. -/
def SnippetGrammar.Specializes (g : SnippetGrammar R) (apart : R → R → Prop)
    (language : Language) : Prop :=
  ∀ k ∈ Kind.all, (∃ r ∈ g.alternatives language.memberProduction, g.role r = .node k) →
    language = .java ∧ k = .initializer ∨
      ∃ p ∈ Production.all, k.production? = some p ∧ language.supports p = true ∧
        p.accepts k = true ∧ g.Agrees apart [] language.memberProduction p k

instance [DecidableRel apart] : Decidable (g.Specializes apart language) :=
  inferInstanceAs (Decidable (∀ k ∈ Kind.all, _ → _))

theorem parseSnippet_of_member (hg : g.Regular)
    (hengine : Engine.bundled language = .ofGrammar language g)
    (hapart : ∀ r r', apart r r' → g.Excludes r r') (hspecial : g.Specializes apart language)
    (h : parseSnippet text ⟨language, language.memberProduction⟩ strict = .ok n) :
    language = .java ∧ n.kind = .initializer ∨
      ∃ p, n.kind.production? = some p ∧ parseSnippet text ⟨language, p⟩ strict = .ok n := by
  obtain ⟨-, hparse, -⟩ := parseSnippet_eq_ok_iff.1 h
  rw [hengine] at hparse
  rcases hspecial n.kind n.kind.mem_all (SnippetGrammar.exists_rule_of_read hg hparse) with
    hblock | ⟨p, -, hp, hsupports, haccepts, hagrees⟩
  · exact .inl hblock
  · refine .inr ⟨p, hp, ?_⟩
    exact parseSnippet_of_agrees hg hengine hapart (List.forall_mem_nil _) hsupports haccepts
      hagrees h

/-- A production is read alike as a member, where the rules fail that stand in its way. -/
theorem parseSnippet_member (hg : g.Regular)
    (hengine : Engine.bundled language = .ofGrammar language g)
    (hapart : ∀ r r', apart r r' → g.Excludes r r')
    (hfailing : ∀ r ∈ failing, g.matchRule r .spaced (g.trivia.skip text.toList) = none)
    (hgeneral : ∀ k ∈ Kind.all, production.accepts k = true →
      language.memberProduction.accepts k = true ∧
        g.Agrees apart failing production language.memberProduction k)
    (h : parseSnippet text ⟨language, production⟩ strict = .ok n) :
    parseSnippet text ⟨language, language.memberProduction⟩ strict = .ok n := by
  obtain ⟨-, -, hkind⟩ := parseSnippet_eq_ok_iff.1 h
  obtain ⟨haccepts, hagrees⟩ := hgeneral n.kind n.kind.mem_all hkind
  have hsupports : language.supports language.memberProduction = true := by
    cases language <;> decide
  exact parseSnippet_of_agrees hg hengine hapart hfailing hsupports haccepts hagrees h

/-- Where no text is read leniently as a production, its rules fail. -/
theorem match_none_of_parseSnippet (hg : g.Regular)
    (hengine : Engine.bundled language = .ofGrammar language g)
    (hsupports : language.supports production = true)
    (haccepts : ∀ r ∈ g.alternatives production, ∀ k ∈ Kind.all, g.role r = .node k →
      production.accepts k = true)
    (h : ∀ m, parseSnippet text ⟨language, production⟩ false ≠ .ok m) :
    ∀ r ∈ g.alternatives production,
      g.matchRule r .spaced (g.trivia.skip text.toList) = none := by
  have hnone : ∀ m, g.read language text.toList production .lenient ≠ .ok m := by
    intro m hread
    obtain ⟨r, hr, hrole⟩ := SnippetGrammar.exists_rule_of_read hg hread
    refine h m (parseSnippet_eq_ok_iff.2
      ⟨hsupports, ?_, haccepts r hr m.kind m.kind.mem_all hrole⟩)
    rw [hengine]
    exact hread
  exact SnippetGrammar.match_none_of_read hg hnone

end Transfer

section Parsed

variable {text : String} {strict : Bool} {n : Node}

theorem parseSnippet_specific {language : Language}
    (h : parseSnippet text ⟨language, language.memberProduction⟩ strict = .ok n) :
    language = .java ∧ n.kind = .initializer ∨
      ∃ p, n.kind.production? = some p ∧ parseSnippet text ⟨language, p⟩ strict = .ok n := by
  cases language with
  | java =>
      exact parseSnippet_of_member Java.regular rfl (fun _ _ => Java.excludes_of_apart)
        (by decide) h
  | csharp =>
      exact parseSnippet_of_member CSharp.regular rfl (fun _ _ => CSharp.excludes_of_apart)
        (by decide) h
  | c =>
      exact parseSnippet_of_member C.regular rfl (fun _ _ (h : False) => h.elim)
        (by decide) h

theorem parseSnippet_java_member {p : Production} (hp : p ∈ [.type, .constructor, .field])
    (h : parseSnippet text ⟨.java, p⟩ strict = .ok n) :
    parseSnippet text ⟨.java, .classMember⟩ strict = .ok n := by
  have hgeneral : ∀ p ∈ [Production.type, .constructor, .field], ∀ k ∈ Kind.all,
      p.accepts k = true → Production.classMember.accepts k = true ∧
        Java.grammar.Agrees Java.Apart [] p .classMember k := by
    decide
  exact parseSnippet_member Java.regular rfl (fun _ _ => Java.excludes_of_apart)
    (List.forall_mem_nil _) (hgeneral p hp) h

/-- The general member production agrees with the specific ones. What is read as a member
is read alike as the production of its kind, which only initializer blocks lack. What is
read as a type, constructor or field in Java, or as a function in C, is read alike as a
member; so is a method unless a type can be read from the text, and a declaration unless
a function can. -/
theorem parseSnippet_members (text : String) (strict : Bool) (n : Node) :
    (∀ language : Language,
      parseSnippet text ⟨language, language.memberProduction⟩ strict = .ok n →
        language = .java ∧ n.kind = .initializer ∨
          ∃ p, n.kind.production? = some p ∧ parseSnippet text ⟨language, p⟩ strict = .ok n) ∧
    (∀ p ∈ [Production.type, .constructor, .field],
      parseSnippet text ⟨.java, p⟩ strict = .ok n →
        parseSnippet text ⟨.java, .classMember⟩ strict = .ok n) ∧
    (parseSnippet text ⟨.java, .method⟩ strict = .ok n →
      (∀ m, parseSnippet text ⟨.java, .type⟩ false ≠ .ok m) →
        parseSnippet text ⟨.java, .classMember⟩ strict = .ok n) ∧
    (parseSnippet text ⟨.c, .function⟩ strict = .ok n →
      parseSnippet text ⟨.c, .externalDeclaration⟩ strict = .ok n) ∧
    (parseSnippet text ⟨.c, .declaration⟩ strict = .ok n →
      (∀ m, parseSnippet text ⟨.c, .function⟩ false ≠ .ok m) →
        parseSnippet text ⟨.c, .externalDeclaration⟩ strict = .ok n) := by
  refine ⟨fun language => parseSnippet_specific, fun p hp => parseSnippet_java_member hp,
    fun h htype => ?_, fun h => ?_, fun h hfunction => ?_⟩
  · have hfailing := match_none_of_parseSnippet Java.regular rfl (by decide) (by decide +kernel)
      htype
    exact parseSnippet_member Java.regular rfl (fun _ _ => Java.excludes_of_apart) hfailing
      (by decide +kernel) h
  · exact parseSnippet_member C.regular rfl (fun _ _ (h : False) => h.elim)
      (List.forall_mem_nil _) (by decide +kernel) h
  · have hfailing := match_none_of_parseSnippet C.regular rfl (by decide) (by decide +kernel)
      hfunction
    exact parseSnippet_member C.regular rfl (fun _ _ (h : False) => h.elim) hfailing
      (by decide +kernel) h

/-- A method that looks like a record is a class when read as a member. -/
example :
    let text := "record run() \x7b\x7d"
    (parseSnippet text ⟨.java, .method⟩ true).toOption.map Node.kind = some .method ∧
      (parseSnippet text ⟨.java, .classMember⟩ true).toOption.map Node.kind = some .class := by
  decide +kernel

/-- A method of which no type can be read, and a declaration of which no function can. -/
theorem parseSnippet_members_unmistaken :
    let method : Node := ⟨.method, some "size", [⟨.identifier, some "size", [], ⟨4, 8⟩, none⟩],
      ⟨0, 11⟩, none⟩
    let declaration : Node := ⟨.declaration, some "a",
      [⟨.variable, some "a", [], ⟨4, 5⟩, none⟩, ⟨.variable, some "b", [], ⟨7, 8⟩, none⟩],
      ⟨0, 9⟩, none⟩
    (parseSnippet "int size();" ⟨.java, .method⟩ true = .ok method ∧
      parseSnippet "int size();" ⟨.java, .classMember⟩ true = .ok method) ∧
    (parseSnippet "int a, b;" ⟨.c, .declaration⟩ true = .ok declaration ∧
      parseSnippet "int a, b;" ⟨.c, .externalDeclaration⟩ true = .ok declaration) := by
  intro method declaration
  have hmethod : parseSnippet "int size();" ⟨.java, .method⟩ true = .ok method :=
    Outcome.eq_ok_of_toOption (by decide +kernel)
  have htype : ∀ m, parseSnippet "int size();" ⟨.java, .type⟩ false ≠ .ok m :=
    Outcome.ne_ok_of_toOption (by decide +kernel)
  have hdeclaration : parseSnippet "int a, b;" ⟨.c, .declaration⟩ true = .ok declaration :=
    Outcome.eq_ok_of_toOption (by decide +kernel)
  have hfunction : ∀ m, parseSnippet "int a, b;" ⟨.c, .function⟩ false ≠ .ok m :=
    Outcome.ne_ok_of_toOption (by decide +kernel)
  obtain ⟨-, -, hjava, -, -⟩ := parseSnippet_members "int size();" true method
  obtain ⟨-, -, -, -, hc⟩ := parseSnippet_members "int a, b;" true declaration
  exact ⟨⟨hmethod, hjava hmethod htype⟩, hdeclaration, hc hdeclaration hfunction⟩

end Parsed

end FeatureTree
