import FeatureTree.Proofs.Language.CSharpMembers
import FeatureTree.Proofs.Snippet.Boundary
import FeatureTree.Proofs.Snippet.Members

/-!
# C# members read as what they are not

Each production of C# is read by rules of its own, tried from the front of the text and
knowing nothing of those of other productions. Where no record may be meant, a text that
one of them reads is read alike as a member of unknown form, with one exception: a field
can be read from the text of a property, as the equals sign of an arrow is read on its own
(`readsAsMember_iff`).
-/

namespace FeatureTree.CSharp

open Grammar

variable {text : String} {strict : Bool} {p : Production} {n m : Node} {v x : List Char}

/-- The first word behind the modifiers of a text. -/
def firstWord (text : String) : String :=
  match grammar.matchRule .modifiers .spaced (grammar.trivia.skip text.toList) with
  | some (rest, _) => String.ofList ((grammar.trivia.skip rest).takeWhile isWordChar)
  | none => ""

theorem not_record (h : firstWord text ≠ "record")
    (hv : grammar.Passes (.rule .modifiers) (grammar.trivia.skip text.toList) v) :
    ¬ grammar.Passes (.rule .kwRecord) v x := by
  rintro ⟨t, f, hword, -⟩
  obtain ⟨rest, f', hmodifiers, hrest⟩ := hv
  obtain ⟨word, hmem, rfl, ht⟩ := isWord_record.exists_word ranked takesChar_identChar hword
  cases List.mem_singleton.1 hmem
  refine h ?_
  rw [firstWord, show grammar.matchRule .modifiers .spaced _ = some (rest, f') from hmodifiers]
  simp only [show grammar.trivia.skip rest = "record".toList ++ t from hrest]
  rw [takeWhile_run (by decide) ht, String.ofList_toList]

/-- The productions of one form of member. -/
def specific : List Production := [.method, .constructor, .field, .property, .type]

/-- What is read as a member of one form is read alike as a member of unknown form. -/
def ReadsAsMember (text : String) (strict : Bool) : Prop :=
  ∀ p ∈ specific, ∀ n, parseSnippet text ⟨.csharp, p⟩ strict = .ok n →
    parseSnippet text ⟨.csharp, .classMember⟩ strict = .ok n

/-- All productions that read the text read one kind of node from it. -/
def ReadsOneKind (text : String) : Prop :=
  ∀ p ∈ specific, ∀ q ∈ specific, ∀ strict strict' n m,
    parseSnippet text ⟨.csharp, p⟩ strict = .ok n →
      parseSnippet text ⟨.csharp, q⟩ strict' = .ok m → n.kind = m.kind

/-- Behind the first name that a text declares there is an arrow. -/
def ArrowBehindName (text : String) : Prop :=
  ∃ u v w, grammar.Passes (.rule .modifiers) (grammar.trivia.skip text.toList) u ∧
    grammar.Passes (.rule .typeRef) u v ∧ grammar.Passes (.rule .declName) v ('=' :: '>' :: w)

theorem parseSnippet_lenient (h : parseSnippet text ⟨.csharp, p⟩ strict = .ok n) :
    parseSnippet text ⟨.csharp, p⟩ false = .ok n := by
  cases strict with
  | false => exact h
  | true => exact (parseSnippet_strict_iff.1 h).1

theorem read_of_parseSnippet (h : parseSnippet text ⟨.csharp, p⟩ strict = .ok n) :
    grammar.read .csharp text.toList p (.ofStrict strict) = .ok n :=
  (parseSnippet_eq_ok_iff.1 h).2.1

theorem exists_member (hp : p ∈ specific) (htype : p ≠ .type)
    (h : parseSnippet text ⟨.csharp, p⟩ strict = .ok n) :
    ∃ r ∈ members, (grammar.matchRule r .spaced (grammar.trivia.skip text.toList)).isSome = true := by
  have hmembers : ∀ p ∈ specific, p ≠ .type → ∀ r ∈ grammar.alternatives p, r ∈ members := by
    decide
  obtain ⟨r, hr, -, hmatch⟩ :=
    SnippetGrammar.exists_match_of_read regular (read_of_parseSnippet h)
  exact ⟨r, hmembers p hp htype r hr, hmatch⟩

/-- Where no record is meant and no property stands in the way of a field, what is read is
read alike as a member. -/
theorem parseSnippet_member_of_specific (hrecord : firstWord text ≠ "record") (hp : p ∈ specific)
    (hproperty : p = .field → ∀ m, parseSnippet text ⟨.csharp, .property⟩ false ≠ .ok m)
    (h : parseSnippet text ⟨.csharp, p⟩ strict = .ok n) :
    parseSnippet text ⟨.csharp, .classMember⟩ strict = .ok n := by
  have hclass : p ≠ .type →
      grammar.matchRule .classDeclaration .spaced (grammar.trivia.skip text.toList) = none := by
    intro htype
    obtain ⟨r, hr, hmatch⟩ := exists_member hp htype h
    exact member_excludes_class hr hmatch (not_record hrecord)
  have hgeneral : ∀ p ∈ specific, ∀ k ∈ Kind.all, p.accepts k = true →
      Production.classMember.accepts k = true ∧ grammar.Agrees ToldApart
        (match p with
          | .type => []
          | .field => [.classDeclaration, .propertyDeclaration]
          | _ => [.classDeclaration])
        p .classMember k := by decide
  refine parseSnippet_member regular rfl (fun _ _ => excludes_of_toldApart) ?_ (hgeneral p hp) h
  cases p with
  | type => exact List.forall_mem_nil _
  | field =>
      have hnone := match_none_of_parseSnippet regular rfl (by decide) (by decide)
        (hproperty rfl) .propertyDeclaration (by decide)
      exact List.forall_mem_cons.2 ⟨hclass nofun, List.forall_mem_singleton.2 hnone⟩
  | _ => exact List.forall_mem_singleton.2 (hclass nofun)

/-- Where a member of unknown form is read as a field, no property is read. -/
theorem not_property_of_member {k : Node} (hkind : n.kind = .field)
    (h : parseSnippet text ⟨.csharp, .classMember⟩ strict = .ok n) :
    parseSnippet text ⟨.csharp, .property⟩ false ≠ .ok k := by
  intro hproperty
  obtain ⟨r, hr, -, hmatch⟩ :=
    SnippetGrammar.exists_match_of_read regular (read_of_parseSnippet hproperty)
  have hbefore : ∀ r ∈ grammar.alternatives .property, ∀ r' ∈ grammar.alternatives .classMember,
      grammar.role r' = .node .field →
        r ∈ (grammar.alternatives .classMember).takeWhile (· != r') := by decide
  rw [SnippetGrammar.match_none_of_before regular (read_of_parseSnippet h)
    (hkind.symm ▸ hbefore r hr)] at hmatch
  cases hmatch

theorem kind_of_field (h : parseSnippet text ⟨.csharp, .field⟩ strict = .ok n) :
    n.kind = .field := by
  simpa [Production.accepts] using (parseSnippet_eq_ok_iff.1 h).2.2

theorem kind_of_property (h : parseSnippet text ⟨.csharp, .property⟩ strict = .ok n) :
    n.kind = .property := by
  simpa [Production.accepts] using (parseSnippet_eq_ok_iff.1 h).2.2

theorem arrowBehindName_of_field_property {strict' : Bool}
    (hfield : parseSnippet text ⟨.csharp, .field⟩ strict = .ok n)
    (hproperty : parseSnippet text ⟨.csharp, .property⟩ strict' = .ok m) :
    ArrowBehindName text := by
  obtain ⟨r, hr, -, hmatch⟩ :=
    SnippetGrammar.exists_match_of_read regular (read_of_parseSnippet hfield)
  obtain ⟨r', hr', -, hmatch'⟩ :=
    SnippetGrammar.exists_match_of_read regular (read_of_parseSnippet hproperty)
  have hfields : ∀ r ∈ grammar.alternatives .field, r = .fieldDeclaration := by decide
  have hproperties : ∀ r ∈ grammar.alternatives .property,
      r = .indexerDeclaration ∨ r = .propertyDeclaration := by decide
  cases hfields r hr
  rcases hproperties r' hr' with rfl | rfl
  · have hnone : grammar.matchRule .indexerDeclaration .spaced (grammar.trivia.skip text.toList) =
        none := field_excludes_indexer _ (between_between ranked) hmatch
    rw [hnone] at hmatch'
    cases hmatch'
  · exact arrow_of_field_property hmatch hmatch'

/-- Where no record is meant, a text that the production of one form of member reads is
read alike as a member of unknown form, and no two of these productions read nodes of
different kinds, exactly if no property can be read from the text of a field. One can be
read only where an arrow stands behind the name. -/
theorem readsAsMember_iff (text : String) (hrecord : firstWord text ≠ "record") :
    (∀ strict, ReadsAsMember text strict ↔
      ∀ n m, parseSnippet text ⟨.csharp, .field⟩ strict = .ok n →
        parseSnippet text ⟨.csharp, .property⟩ false ≠ .ok m) ∧
    (ReadsOneKind text ↔
      ∀ n m, parseSnippet text ⟨.csharp, .field⟩ false = .ok n →
        parseSnippet text ⟨.csharp, .property⟩ false ≠ .ok m) ∧
    (∀ n m, parseSnippet text ⟨.csharp, .field⟩ false = .ok n →
      parseSnippet text ⟨.csharp, .property⟩ false = .ok m → ArrowBehindName text) := by
  refine ⟨fun strict => ⟨fun hreads n m hfield => ?_, fun hapart p hp n h => ?_⟩,
    ⟨fun hreads n m hfield hproperty => ?_, fun hapart p hp q hq strict strict' n m h h' => ?_⟩,
    fun n m => arrowBehindName_of_field_property⟩
  · exact not_property_of_member (kind_of_field hfield) (hreads .field (by decide) n hfield)
  · refine parseSnippet_member_of_specific hrecord hp ?_ h
    rintro rfl m
    exact hapart n m h
  · have hkinds := hreads .field (by decide) .property (by decide) false false n m hfield hproperty
    rw [kind_of_field hfield, kind_of_property hproperty] at hkinds
    cases hkinds
  · have hmember : ∀ {p n}, p ∈ specific → parseSnippet text ⟨.csharp, p⟩ false = .ok n →
        parseSnippet text ⟨.csharp, .classMember⟩ false = .ok n := by
      intro p n hp h
      refine parseSnippet_member_of_specific hrecord hp ?_ h
      rintro rfl m
      exact hapart n m h
    have hn := hmember hp (parseSnippet_lenient h)
    have hm := hmember hq (parseSnippet_lenient h')
    cases hn.symm.trans hm
    rfl

/-- A field with a value from which no property is read. -/
theorem readsAsMember_value :
    firstWord "int x = 5, y;" ≠ "record" ∧ (∀ strict, ReadsAsMember "int x = 5, y;" strict) ∧
      ReadsOneKind "int x = 5, y;" := by
  have hrecord : firstWord "int x = 5, y;" ≠ "record" := by decide
  have hproperty : ∀ m, parseSnippet "int x = 5, y;" ⟨.csharp, .property⟩ false ≠ .ok m :=
    Outcome.ne_ok_of_toOption (by decide +kernel)
  obtain ⟨hmember, hkind, -⟩ := readsAsMember_iff "int x = 5, y;" hrecord
  exact ⟨hrecord, fun strict => (hmember strict).2 fun _ m _ => hproperty m,
    hkind.2 fun _ m _ => hproperty m⟩

/-- A property with an arrow is read as a field whose value begins with the rest of the
arrow. -/
theorem not_readsAsMember_arrow : ¬ ReadsAsMember "int x => 5;" true := by
  intro hreads
  let field : Node := ⟨.field, some "x", [⟨.variable, some "x", [], ⟨4, 10⟩, some ⟨7, 10⟩⟩],
    ⟨0, 11⟩, none⟩
  have hfield : parseSnippet "int x => 5;" ⟨.csharp, .field⟩ true = .ok field :=
    Outcome.eq_ok_of_toOption (by decide +kernel)
  have hmember := hreads .field (by decide) field hfield
  have hkind : (parseSnippet "int x => 5;" ⟨.csharp, .classMember⟩ true).toOption.map Node.kind =
      some .property := by decide +kernel
  rw [hmember] at hkind
  cases hkind

end FeatureTree.CSharp
